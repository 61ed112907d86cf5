/-
What a sliding window stands for, and its operations as those of the history.

Where the circular buffer has been rotated to does not show: `view` keeps the live bytes in
the order they were written.
-/
import Iluvatar.Lzma.History
import Iluvatar.Lzma.WindowCopy

namespace Iluvatar

open Buffer Except

namespace SlidingWindow

/-- A window whose bytes not yet written are zero. -/
structure Wf (w : SlidingWindow) : Prop extends w.Placed where
  fresh : w.isFull = false → ∀ i, w.pos ≤ i → i < w.size → w.buf[i]? = some 0

/-- Writing within the buffer keeps the window well formed. -/
theorem Wf.wrote {w : SlidingWindow} {bs : List Byte} (h : w.Wf) (hfit : w.pos + bs.length ≤ w.size) :
    (w.wrote bs).Wf := by
  have hlength := h.length
  have hinside := h.inside
  have hsplice : w.pos + bs.length ≤ w.buf.length := by omega
  refine ⟨h.toPlaced.wrote hfit, ?_⟩
  unfold SlidingWindow.wrote
  by_cases hlast : w.pos + bs.length = w.size
  · rw [advance_around (by exact hlast)]
    exact fun hfull => absurd hfull (by simp)
  · have hlt : w.pos + bs.length < w.size := by omega
    rw [advance_within (by exact hlt)]
    intro hfresh i hi hsize
    have hi : w.pos + bs.length ≤ i := hi
    show (splice w.buf w.pos bs)[i]? = some 0
    rw [getElem?_splice hsplice, if_neg (by omega), if_neg (by omega)]
    exact h.fresh hfresh i (by omega) hsize

theorem Wf.putByteDirect {w : SlidingWindow} (h : w.Wf) (b : Byte) : (w.putByteDirect b).Wf := by
  have hinside := h.inside
  rw [h.putByteDirect_eq]
  exact h.wrote hinside

variable {w w' : SlidingWindow} {dist n len : Nat} {bs : List Byte}

def view (w : SlidingWindow) : History :=
  { size := w.size
    bytes := w.getWindowData.reverse
    totalPos := w.totalPos
    pending := w.pendingOut }

@[simp] theorem view_size (w : SlidingWindow) : w.view.size = w.size := rfl
@[simp] theorem view_totalPos (w : SlidingWindow) : w.view.totalPos = w.totalPos := rfl
@[simp] theorem view_pending (w : SlidingWindow) : w.view.pending = w.pendingOut := rfl

theorem toNat_max (a b : UInt32) : (max a b).toNat = max a.toNat b.toNat := by
  have hmax : max a b = if a ≤ b then b else a := rfl
  rw [hmax]
  by_cases hle : a ≤ b
  · rw [if_pos hle, Nat.max_eq_right (UInt32.le_iff_toNat_le.mp hle)]
  · have hlt : ¬ a.toNat ≤ b.toNat := fun h => hle (UInt32.le_iff_toNat_le.mpr h)
    rw [if_neg hle]
    omega

theorem new_size (dictSize : UInt32) : (new dictSize).size = max dictSize.toNat 4096 :=
  toNat_max _ _

theorem new_wf (dictSize : UInt32) : (new dictSize).Wf := by
  have hsize := new_size dictSize
  refine ⟨⟨List.length_replicate, ?_⟩, ?_⟩
  · show 0 < (new dictSize).size
    omega
  · intro _ i _ hi
    exact List.getElem?_replicate_of_lt hi

/-- The live bytes end at the cursor. -/
theorem Wf.data_full (h : w.Wf) (hfull : w.isFull = true) :
    w.getWindowData = w.buf.drop w.pos ++ w.buf.take w.pos ∧ w.getWindowData.length = w.size := by
  have hdata : w.getWindowData = w.buf.drop w.pos ++ w.buf.take w.pos := by
    unfold getWindowData
    rw [if_pos hfull]
  have hlength := h.length
  have hinside := h.inside
  refine ⟨hdata, ?_⟩
  rw [hdata, List.length_append, List.length_drop, List.length_take]
  omega

theorem Wf.data_part (h : w.Wf) (hpart : w.isFull = false) :
    w.getWindowData = w.buf.take w.pos ∧ w.getWindowData.length = w.pos := by
  have hdata : w.getWindowData = w.buf.take w.pos := by
    unfold getWindowData
    rw [hpart]
    rfl
  have hlength := h.length
  have hinside := h.inside
  refine ⟨hdata, ?_⟩
  rw [hdata, List.length_take]
  omega

/-- A byte put becomes the newest; a full window forgets its oldest. -/
theorem Wf.data_put (h : w.Wf) (b : Byte) :
    (w.putByteDirect b).getWindowData =
      (if w.isFull then w.getWindowData.drop 1 else w.getWindowData) ++ [b] := by
  have hlength := h.length
  have hinside := h.inside
  have hlt : w.pos < w.buf.length := by omega
  have htake : (w.buf.take w.pos).length = w.pos := by
    rw [List.length_take]
    omega
  have hset : w.buf.set w.pos b = w.buf.take w.pos ++ b :: w.buf.drop (w.pos + 1) := by
    rw [List.set_eq_take_append_cons_drop, if_pos hlt]
  have hwritten : (w.buf.set w.pos b).take (w.pos + 1) = w.buf.take w.pos ++ [b] := by
    rw [hset, List.take_append, htake, List.take_of_length_le (by omega), Nat.add_sub_cancel_left]
    rfl
  unfold SlidingWindow.putByteDirect
  by_cases hlast : w.pos + 1 = w.size
  · have hall : (w.buf.set w.pos b).take (w.pos + 1) = w.buf.set w.pos b :=
      List.take_of_length_le (by rw [List.length_set]; omega)
    have hnone : w.buf.drop (w.pos + 1) = [] := List.drop_eq_nil_of_le (by omega)
    rw [advance_around (by exact hlast)]
    show w.buf.set w.pos b ++ [] = _
    rw [List.append_nil, ← hall, hwritten]
    by_cases hfull : w.isFull = true
    · rw [if_pos hfull, (h.data_full hfull).1, List.drop_eq_getElem_cons hlt, hnone]
      rfl
    · rw [if_neg hfull, (h.data_part (by simpa using hfull)).1]
  · rw [advance_within (by show w.pos + 1 < w.size; omega)]
    by_cases hfull : w.isFull = true
    · rw [if_pos hfull, (h.data_full hfull).1]
      unfold getWindowData
      simp only
      rw [if_pos hfull, hwritten, List.drop_eq_getElem_cons hlt]
      have hrest : (w.buf.set w.pos b).drop (w.pos + 1) = w.buf.drop (w.pos + 1) := by
        rw [hset, List.drop_append, htake, List.drop_eq_nil_of_le (by omega),
          Nat.add_sub_cancel_left]
        rfl
      rw [hrest, List.cons_append, List.drop_succ_cons, List.drop_zero, List.append_assoc]
    · rw [if_neg hfull, (h.data_part (by simpa using hfull)).1]
      unfold getWindowData
      simp only
      rw [if_neg hfull, hwritten]

theorem Wf.view_putByteDirect (h : w.Wf) (b : Byte) : (w.putByteDirect b).view = w.view.put b := by
  have hinside := h.inside
  have hbytes : (w.putByteDirect b).getWindowData.reverse =
      (b :: w.getWindowData.reverse).take w.size := by
    rw [h.data_put, List.reverse_append, List.reverse_singleton, List.singleton_append]
    by_cases hfull : w.isFull = true
    · have hlen := (h.data_full hfull).2
      obtain ⟨m, hm⟩ : ∃ m, w.size = m + 1 := ⟨w.size - 1, by omega⟩
      rw [if_pos hfull, hm, List.take_succ_cons, List.reverse_drop]
      congr 2
      omega
    · have hlen := (h.data_part (by simpa using hfull)).2
      rw [if_neg hfull, List.take_of_length_le]
      rw [List.length_cons, List.length_reverse]
      omega
  unfold view History.put
  rw [hbytes]
  unfold SlidingWindow.putByteDirect
  rw [advance_size, advance_totalPos, advance_pendingOut]

theorem Wf.putByte (h : w.Wf) (b : Byte) : (w.putByte b).Wf := by
  have hput := h.putByteDirect b
  exact ⟨⟨hput.length, hput.inside⟩, hput.fresh⟩

theorem Wf.view_putByte (h : w.Wf) (b : Byte) : (w.putByte b).view = w.view.putByte b := by
  show ({ (w.putByteDirect b).view with pending := w.pendingOut ++ [b] } : History) = _
  rw [h.view_putByteDirect]
  rfl

theorem Wf.getByte_view (h : w.Wf) (hpos : 0 < dist) (hdist : dist ≤ w.size) :
    w.getByte dist = w.view.getByte dist := by
  have hlength := h.length
  have hinside := h.inside
  obtain ⟨b, hget, hbyte⟩ := h.getByte_ok hpos hdist
  have hview : w.view.getByte dist = .ok (w.getWindowData.reverse[dist - 1]?.getD 0) :=
    if_neg (by rw [view_size]; omega)
  rw [hget, hview]
  congr 1
  unfold source at hbyte
  by_cases hfull : w.isFull = true
  · obtain ⟨hdata, hlen⟩ := h.data_full hfull
    have hplace : w.getWindowData[w.size - dist]? = some b := by
      rw [hdata]
      by_cases hnear : dist ≤ w.pos
      · rw [if_pos hnear] at hbyte
        rw [List.getElem?_append_right (by rw [List.length_drop]; omega), List.length_drop,
          List.getElem?_take, if_pos (by omega), ← hbyte]
        congr 1
        omega
      · rw [if_neg hnear] at hbyte
        rw [List.getElem?_append_left (by rw [List.length_drop]; omega), List.getElem?_drop, ← hbyte]
        congr 1
        omega
    have hback : w.size - 1 - (dist - 1) = w.size - dist := by omega
    rw [List.getElem?_reverse (by omega), hlen, hback, hplace]
    rfl
  · have hpart : w.isFull = false := by simpa using hfull
    obtain ⟨hdata, hlen⟩ := h.data_part hpart
    by_cases hnear : dist ≤ w.pos
    · rw [if_pos hnear] at hbyte
      have hback : w.pos - 1 - (dist - 1) = w.pos - dist := by omega
      rw [List.getElem?_reverse (by omega), hlen, hback, hdata, List.getElem?_take,
        if_pos (by omega), hbyte]
      rfl
    · rw [if_neg hnear] at hbyte
      have hzero := h.fresh hpart (w.size - (dist - w.pos)) (by omega) (by omega)
      rw [List.getElem?_eq_none (by rw [List.length_reverse]; omega)]
      exact Option.some.inj (hbyte.symm.trans hzero)

/-- A window and the history it stands for. -/
def Shows (w : SlidingWindow) (v : History) : Prop := w.Wf ∧ w.view = v

variable {v v' : History}

theorem Shows.getByte (h : w.Shows v) (dist : Nat) :
    Refines Eq (w.getByte dist) (v.getByte dist) := by
  obtain ⟨hwf, rfl⟩ := h
  intro b hb
  by_cases hout : dist = 0 ∨ w.size < dist
  · exact absurd ((if_pos hout).symm.trans hb) (by simp)
  · exact ⟨b, (hwf.getByte_view (by omega) (by omega)).trans hb, rfl⟩

theorem Shows.putByteDirect (h : w.Shows v) (b : Byte) : (w.putByteDirect b).Shows (v.put b) := by
  obtain ⟨hwf, rfl⟩ := h
  exact ⟨hwf.putByteDirect b, hwf.view_putByteDirect b⟩

theorem Shows.putByte (h : w.Shows v) (b : Byte) : (w.putByte b).Shows (v.putByte b) := by
  obtain ⟨hwf, rfl⟩ := h
  exact ⟨hwf.putByte b, hwf.view_putByte b⟩

theorem Shows.isEmpty (h : w.Shows v) : w.isEmpty = v.bytes.isEmpty := by
  obtain ⟨hwf, rfl⟩ := h
  have hinside := hwf.inside
  rw [Bool.eq_iff_iff, List.isEmpty_iff]
  show decide _ = true ↔ w.getWindowData.reverse = []
  rw [decide_eq_true_iff, List.reverse_eq_nil_iff, ← List.length_eq_zero_iff]
  by_cases hfull : w.isFull = true
  · rw [(hwf.data_full hfull).2, hfull]
    constructor
    · rintro ⟨_, h⟩
      exact absurd h (by simp)
    · intro h
      omega
  · have hpart : w.isFull = false := by simpa using hfull
    rw [(hwf.data_part hpart).2, hpart]
    exact ⟨fun h => h.1, fun h => ⟨h, rfl⟩⟩

theorem Shows.checkDistance (h : w.Shows v) (dist : Nat) :
    w.checkDistance dist = decide (dist < v.bytes.length) := by
  obtain ⟨hwf, rfl⟩ := h
  show _ = decide (dist < w.getWindowData.reverse.length)
  unfold SlidingWindow.checkDistance
  rw [List.length_reverse]
  by_cases hfull : w.isFull = true
  · rw [if_pos hfull, (hwf.data_full hfull).2]
  · rw [if_neg hfull, (hwf.data_part (by simpa using hfull)).2]

theorem Shows.drainOutput (h : w.Shows v) (room : Nat) :
    (w.drainOutput room).1 = (LzmaWindow.drainOutput v room).1 ∧
      (w.drainOutput room).2.Shows (LzmaWindow.drainOutput v room).2 := by
  obtain ⟨⟨⟨hlength, hinside⟩, hfresh⟩, rfl⟩ := h
  have htake : w.pendingOut.take (min w.pendingOut.length room) = w.pendingOut.take room := by
    rw [Nat.min_comm, ← List.take_take, List.take_of_length_le (Nat.le_refl _)]
  have hdrop : w.pendingOut.drop (min w.pendingOut.length room) = w.pendingOut.drop room := by
    by_cases hroom : room ≤ w.pendingOut.length
    · rw [Nat.min_eq_right hroom]
    · rw [List.drop_eq_nil_of_le (by omega), List.drop_eq_nil_of_le (by omega)]
  refine ⟨htake, ⟨⟨hlength, hinside⟩, hfresh⟩, ?_⟩
  show ({ w.view with pending := w.pendingOut.drop (min w.pendingOut.length room) } : History) = _
  rw [hdrop]
  rfl

theorem Shows.bytewise :
    ∀ n {w : SlidingWindow} {v : History}, w.Shows v →
      Refines (fun r r' => r.1 = r'.1 ∧ r.2.Shows r'.2) (bytewise dist n w)
        (History.copyMatchTo dist n v) := by
  intro n
  induction n with
  | zero => intro w v h; exact Refines.ok ⟨rfl, h⟩
  | succ n ih =>
    intro w v h
    rw [SlidingWindow.bytewise, History.copyMatchTo]
    refine (h.getByte dist).bind ?_
    rintro b _ rfl
    refine (ih (h.putByteDirect b)).bind ?_
    rintro ⟨bs, w'⟩ ⟨bs', v'⟩ ⟨hbs, hshows⟩
    exact Refines.ok ⟨congrArg (b :: ·) hbs, hshows⟩

theorem copyMatchTo_nothing (w : SlidingWindow) (h : w.Wf) (dist : Nat) :
    w.copyMatchTo dist 0 = .ok ([], w) := by
  have hinside := h.inside
  have hlength := h.length
  unfold copyMatchTo copyMatchInto
  by_cases hnear : dist ≤ w.pos ∧ w.pos + 0 ≤ w.size ∧ (8 ≤ 0 ∧ 8 ≤ dist ∨ 0 < 16)
  · rw [if_pos hnear]
    show Except.ok ([], advance { w with buf := w.buf } 0) = _
    rw [h.advance_zero]
  · rw [if_neg hnear]
    by_cases hone : dist = 1
    · rw [if_pos hone]
      have hone : 1 ≤ w.size := by omega
      obtain ⟨b, hget, _⟩ := h.getByte_ok Nat.one_pos hone
      rw [hget]
      rfl
    · rw [if_neg hone]
      rfl

theorem Shows.copyMatchTo (h : w.Shows v) (dist len : Nat) :
    Refines (fun r r' => r.1 = r'.1 ∧ r.2.Shows r'.2) (w.copyMatchTo dist len)
      (History.copyMatchTo dist len v) := by
  cases len with
  | zero =>
    rw [copyMatchTo_nothing w h.1]
    exact Refines.ok ⟨rfl, h⟩
  | succ len =>
    intro r hr
    have hdist : 0 < dist ∧ dist ≤ w.size := by
      obtain ⟨b, hb, _⟩ := bind_eq_ok.mp hr
      have hsize : v.size = w.size := by rw [← h.2]; rfl
      by_cases hout : dist = 0 ∨ v.size < dist
      · exact absurd ((if_pos hout).symm.trans hb) (by simp)
      · omega
    obtain ⟨bs, w', hcopy, hinto⟩ := h.1.copyMatchInto_eq hdist.1 hdist.2 (len + 1)
      (Nat.le_of_eq (List.length_replicate (n := len + 1) (a := (0 : Byte))).symm)
    obtain ⟨_, hcopy', hbs, hshows⟩ := @Shows.bytewise dist (len + 1) w v h r hr
    obtain rfl := Except.ok.inj (hcopy.symm.trans hcopy')
    have hlen : bs.length = len + 1 := by
      obtain ⟨bs', w'', hcopy'', hlen, _⟩ := Placed.bytewise_ok hdist.1 (len + 1) h.1.toPlaced hdist.2
      obtain ⟨rfl, _⟩ := Prod.mk.inj (Except.ok.inj (hcopy''.symm.trans hcopy))
      exact hlen
    have hwhole : splice (List.replicate (len + 1) 0) 0 bs = bs := by
      rw [splice, List.take_zero, List.nil_append, List.drop_eq_nil_of_le, List.append_nil]
      rw [List.length_replicate]
      omega
    exact ⟨_, hinto, by rw [hwhole]; exact hbs, hshows⟩

theorem Shows.putSliceDirect (h : w.Shows v) (data : List Byte) :
    Refines Shows (w.putSliceDirect data) (.ok (data.foldl History.put v)) := by
  unfold SlidingWindow.putSliceDirect
  rw [Placed.putSlice_ok _ h.1.toPlaced (Nat.lt_succ_self _)]
  apply Refines.ok
  induction data generalizing w v with
  | nil => exact h
  | cons b data ih => exact ih (h.putByteDirect b)

end SlidingWindow

instance : LzmaWindow SlidingWindow where
  new := SlidingWindow.new
  totalPos := SlidingWindow.totalPos
  isEmpty := SlidingWindow.isEmpty
  checkDistance := SlidingWindow.checkDistance
  getByte := SlidingWindow.getByte
  putByte := SlidingWindow.putByte
  putByteDirect := SlidingWindow.putByteDirect
  putSliceDirect := SlidingWindow.putSliceDirect
  copyMatchTo := SlidingWindow.copyMatchTo
  pendingLen w := w.pendingOut.length
  drainOutput := SlidingWindow.drainOutput

end Iluvatar
