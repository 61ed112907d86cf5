/-
The block copies of the sliding window are the bytewise ones.
-/
import Iluvatar.Lzma.Window

namespace Iluvatar

open Buffer

namespace SlidingWindow

/-- The buffer has its size and the cursor is inside. -/
structure Placed (w : SlidingWindow) : Prop where
  length : w.buf.length = w.size
  inside : w.pos < w.size

/-- `n` bytes copied from `dist` back, each in its turn. -/
def bytewise (dist : Nat) : Nat → SlidingWindow → Except Fault (List Byte × SlidingWindow)
  | 0, w => .ok ([], w)
  | n + 1, w => do
    let b ← w.getByte dist
    let (bs, w) ← bytewise dist n (w.putByteDirect b)
    return (b :: bs, w)

/-- The window with `bs` written at the cursor. -/
def wrote (w : SlidingWindow) (bs : List Byte) : SlidingWindow :=
  advance { w with buf := splice w.buf w.pos bs } bs.length

variable {w w' : SlidingWindow} {dist n len : Nat} {bs : List Byte}

@[simp] theorem advance_buf (w : SlidingWindow) (n : Nat) : (w.advance n).buf = w.buf := by
  unfold advance
  simp only
  split <;> rfl

@[simp] theorem advance_size (w : SlidingWindow) (n : Nat) : (w.advance n).size = w.size := by
  unfold advance
  simp only
  split <;> rfl

@[simp] theorem advance_pendingOut (w : SlidingWindow) (n : Nat) :
    (w.advance n).pendingOut = w.pendingOut := by
  unfold advance
  simp only
  split <;> rfl

@[simp] theorem advance_totalPos (w : SlidingWindow) (n : Nat) :
    (w.advance n).totalPos = w.totalPos + n := by
  unfold advance
  simp only
  split <;> rfl

theorem advance_within (h : w.pos + n < w.size) :
    w.advance n = { w with pos := w.pos + n, totalPos := w.totalPos + n } := by
  unfold advance
  simp only
  rw [if_neg (by omega)]

theorem advance_around (h : w.pos + n = w.size) :
    w.advance n = { w with pos := 0, totalPos := w.totalPos + n, isFull := true } := by
  unfold advance
  simp only
  rw [if_pos h]

theorem Placed.advance_zero (h : w.Placed) : w.advance 0 = w := by
  have hinside := h.inside
  rw [advance_within (by omega)]
  rfl

theorem Placed.wrote_nil (h : w.Placed) : w.wrote [] = w := by
  unfold wrote
  rw [splice_nil]
  exact h.advance_zero

/-- Writing within the buffer leaves the cursor inside. -/
theorem Placed.wrote (h : w.Placed) (hfit : w.pos + bs.length ≤ w.size) : (w.wrote bs).Placed := by
  have hlength := h.length
  have hinside := h.inside
  have hsplice : w.pos + bs.length ≤ w.buf.length := by omega
  unfold SlidingWindow.wrote
  by_cases hlast : w.pos + bs.length = w.size
  · rw [advance_around (by exact hlast)]
    exact ⟨(splice_length hsplice).trans hlength, Nat.zero_lt_of_lt hinside⟩
  · have hlt : w.pos + bs.length < w.size := by omega
    rw [advance_within (by exact hlt)]
    exact ⟨(splice_length hsplice).trans hlength, hlt⟩

theorem Placed.putByteDirect_eq (h : w.Placed) (b : Byte) : w.putByteDirect b = w.wrote [b] := by
  have hlength := h.length
  have hinside := h.inside
  unfold putByteDirect SlidingWindow.wrote
  rw [splice_singleton (by omega)]
  rfl

theorem Placed.putByteDirect (h : w.Placed) (b : Byte) : (w.putByteDirect b).Placed := by
  have hinside := h.inside
  rw [h.putByteDirect_eq]
  exact h.wrote hinside

/-- Bytes written together are written one after the other. -/
theorem Placed.wrote_append (h : w.Placed) {bs' : List Byte} (hfit : w.pos + bs.length + bs'.length ≤ w.size)
    (hmore : bs' ≠ []) : (w.wrote bs).wrote bs' = w.wrote (bs ++ bs') := by
  have hlength := h.length
  have hpos := List.length_pos_iff.mpr hmore
  have hsplice : w.pos + bs.length + bs'.length ≤ w.buf.length := by omega
  have hlt : w.pos + bs.length < w.size := by omega
  have hfirst : w.wrote bs = { w with
      buf := splice w.buf w.pos bs, pos := w.pos + bs.length, totalPos := w.totalPos + bs.length } :=
    advance_within (by exact hlt)
  rw [hfirst]
  unfold SlidingWindow.wrote
  simp only
  rw [splice_append hsplice, List.length_append]
  by_cases hlast : w.pos + bs.length + bs'.length = w.size
  · rw [advance_around (by exact hlast), advance_around (by simp only; omega), Nat.add_assoc]
  · rw [advance_within (by simp only; omega), advance_within (by simp only; omega)]
    simp only [Nat.add_assoc]

theorem Placed.wrote_cons (h : w.Placed) {b : Byte} (hfit : w.pos + (bs.length + 1) ≤ w.size) :
    w.wrote (b :: bs) = (w.putByteDirect b).wrote bs := by
  cases hbs : bs with
  | nil =>
    rw [(h.putByteDirect b).wrote_nil, h.putByteDirect_eq]
  | cons b' bs' =>
    rw [h.putByteDirect_eq, ← hbs, h.wrote_append ?_ (by simp [hbs])]
    · rfl
    · rw [List.length_singleton]
      omega

/-- Where the byte `dist` back lies. -/
def source (w : SlidingWindow) (dist : Nat) : Nat :=
  if dist ≤ w.pos then w.pos - dist else w.size - (dist - w.pos)

theorem Placed.getByte_source (h : w.Placed) (hpos : 0 < dist) (hdist : dist ≤ w.size) :
    w.getByte dist = index w.buf (w.source dist) ∧ w.source dist < w.size := by
  have hinside := h.inside
  unfold getByte source
  by_cases hnear : dist ≤ w.pos
  · rw [if_pos hnear, if_pos hnear]
    exact ⟨rfl, by omega⟩
  · rw [if_neg hnear, if_neg hnear, if_neg (by omega)]
    refine ⟨?_, by omega⟩
    congr 1
    omega

theorem Placed.getByte_ok (h : w.Placed) (hpos : 0 < dist) (hdist : dist ≤ w.size) :
    ∃ b, w.getByte dist = .ok b ∧ w.buf[w.source dist]? = some b := by
  obtain ⟨hget, hlt⟩ := h.getByte_source hpos hdist
  have hlt : w.source dist < w.buf.length := by rw [h.length]; exact hlt
  refine ⟨w.buf[w.source dist], ?_, List.getElem?_eq_getElem hlt⟩
  rw [hget, index, List.getElem?_eq_getElem hlt]

/-- A chunk that neither wraps nor reaches the cursor. -/
theorem Placed.bytewise_chunk (hpos : 0 < dist) :
    ∀ n {w : SlidingWindow}, w.Placed → dist ≤ w.size → n ≤ dist → w.source dist + n ≤ w.size →
      w.pos + n ≤ w.size →
      bytewise dist n w =
        .ok (slice w.buf (w.source dist) n, w.wrote (slice w.buf (w.source dist) n)) := by
  intro n
  induction n with
  | zero =>
    intro w h _ _ _ _
    have hnil : slice w.buf (w.source dist) 0 = [] := List.take_zero
    rw [hnil, h.wrote_nil]
    rfl
  | succ n ih =>
    intro w h hdist hn hsource hfit
    obtain ⟨b, hget, hbyte⟩ := h.getByte_ok hpos hdist
    have hlength := h.length
    have hcons : slice w.buf (w.source dist) (n + 1) = b :: slice w.buf (w.source dist + 1) n := by
      have hlt : w.source dist < w.buf.length := by omega
      obtain rfl : w.buf[w.source dist] = b :=
        Option.some.inj ((List.getElem?_eq_getElem hlt).symm.trans hbyte)
      rw [slice, List.drop_eq_getElem_cons hlt, List.take_succ_cons, slice]
    have hlen : (slice w.buf (w.source dist + 1) n).length = n := slice_length (by omega)
    rw [bytewise, hget, hcons]
    show (bytewise dist n (w.putByteDirect b) >>= _) = _
    have hrest : bytewise dist n (w.putByteDirect b) =
        .ok (slice w.buf (w.source dist + 1) n,
          (w.putByteDirect b).wrote (slice w.buf (w.source dist + 1) n)) := by
      cases n with
      | zero =>
        have hnil : slice w.buf (w.source dist + 1) 0 = [] := List.take_zero
        rw [hnil, (h.putByteDirect b).wrote_nil]
        rfl
      | succ n =>
        have hput : w.putByteDirect b = { w with
            buf := splice w.buf w.pos [b], pos := w.pos + 1, totalPos := w.totalPos + 1 } := by
          rw [h.putByteDirect_eq]
          exact advance_within (by show w.pos + 1 < w.size; omega)
        have hnext : (w.putByteDirect b).source dist = w.source dist + 1 := by
          rw [hput]
          unfold source at hsource ⊢
          simp only
          by_cases hnear : dist ≤ w.pos
          · rw [if_pos hnear, if_pos (by omega)]
            omega
          · rw [if_neg hnear] at hsource ⊢
            rw [if_neg (by omega)]
            omega
        have hsame : slice (w.putByteDirect b).buf (w.source dist + 1) (n + 1) =
            slice w.buf (w.source dist + 1) (n + 1) := by
          rw [hput]
          apply slice_splice
          · rw [List.length_singleton]
            omega
          · rw [List.length_singleton]
            unfold source at hsource ⊢
            by_cases hnear : dist ≤ w.pos
            · rw [if_pos hnear]
              omega
            · rw [if_neg hnear]
              omega
        have hgo := ih (h.putByteDirect b) (by rw [hput]; exact hdist) (by omega)
          (by rw [hnext, hput]; show _ ≤ w.size; omega) (by rw [hput]; show w.pos + 1 + _ ≤ w.size; omega)
        rw [hnext, hsame] at hgo
        exact hgo
    rw [hrest, h.wrote_cons (by rw [hlen]; exact hfit)]
    rfl

theorem bytewise_add (m : Nat) :
    ∀ n w, bytewise dist (n + m) w = (do
      let (bs, w) ← bytewise dist n w
      let (bs', w) ← bytewise dist m w
      return (bs ++ bs', w)) := by
  intro n
  induction n with
  | zero =>
    intro w
    rw [Nat.zero_add]
    show _ = bytewise dist m w >>= _
    match bytewise dist m w with
    | .error f => rfl
    | .ok (bs, w') => rfl
  | succ n ih =>
    intro w
    rw [Nat.succ_add, bytewise, bytewise, bind_assoc]
    match w.getByte dist with
    | .error f => rfl
    | .ok b =>
      show (bytewise dist (n + m) (w.putByteDirect b) >>= _) =
        (bytewise dist n (w.putByteDirect b) >>= _) >>= _
      rw [ih]
      match bytewise dist n (w.putByteDirect b) with
      | .error f => rfl
      | .ok (bs, w') =>
        show ((bytewise dist m w' >>= _) >>= _) = (bytewise dist m w' >>= _)
        match bytewise dist m w' with
        | .error f => rfl
        | .ok (bs', w'') => rfl

theorem Placed.putByteDirect_size (w : SlidingWindow) (b : Byte) : (w.putByteDirect b).size = w.size := by
  unfold SlidingWindow.putByteDirect
  rw [advance_size]

/-- Copying within the dictionary goes through. -/
theorem Placed.bytewise_ok (hpos : 0 < dist) :
    ∀ n {w : SlidingWindow}, w.Placed → dist ≤ w.size →
      ∃ bs w', bytewise dist n w = .ok (bs, w') ∧ bs.length = n ∧ w'.Placed ∧ w'.size = w.size := by
  intro n
  induction n with
  | zero => intro w h _; exact ⟨[], w, rfl, rfl, h, rfl⟩
  | succ n ih =>
    intro w h hdist
    obtain ⟨b, hget, _⟩ := h.getByte_ok hpos hdist
    have hsize := Placed.putByteDirect_size w b
    obtain ⟨bs, w', hcopy, hlen, hwf, hsame⟩ :=
      ih (h.putByteDirect b) (by rw [hsize]; exact hdist)
    refine ⟨b :: bs, w', ?_, by rw [List.length_cons, hlen], hwf, hsame.trans hsize⟩
    rw [bytewise, hget]
    show (bytewise dist n (w.putByteDirect b) >>= _) = _
    rw [hcopy]
    rfl

/-- Where nothing wraps, the copy repeats the bytes before it. -/
theorem Placed.bytewise_near (hpos : 0 < dist) :
    ∀ n {w : SlidingWindow}, w.Placed → dist ≤ w.pos → w.pos + n ≤ w.size →
      ∃ bs, bytewise dist n w = .ok (bs, w.wrote bs) ∧ bs.length = n ∧
        Repeats (splice w.buf w.pos bs) w.pos dist n := by
  intro n
  induction n with
  | zero =>
    intro w h _ _
    refine ⟨[], ?_, rfl, fun j hj => absurd hj (Nat.not_lt_zero _)⟩
    rw [h.wrote_nil]
    rfl
  | succ n ih =>
    intro w h hnear hfit
    have hlength := h.length
    obtain ⟨b, hget, hbyte⟩ := h.getByte_ok hpos (by omega)
    have hsource : w.source dist = w.pos - dist := if_pos hnear
    rw [hsource] at hbyte
    have hrest : ∃ bs, bytewise dist n (w.putByteDirect b) =
          .ok (bs, (w.putByteDirect b).wrote bs) ∧ bs.length = n ∧
        Repeats (splice w.buf w.pos (b :: bs)) (w.pos + 1) dist n := by
      cases n with
      | zero =>
        refine ⟨[], ?_, rfl, fun j hj => absurd hj (Nat.not_lt_zero _)⟩
        rw [(h.putByteDirect b).wrote_nil]
        rfl
      | succ n =>
        have hput : w.putByteDirect b = { w with
            buf := splice w.buf w.pos [b], pos := w.pos + 1, totalPos := w.totalPos + 1 } := by
          rw [h.putByteDirect_eq]
          exact advance_within (by show w.pos + 1 < w.size; omega)
        obtain ⟨bs, hcopy, hlen, hrepeats⟩ := ih (h.putByteDirect b)
          (by rw [hput]; exact Nat.le_succ_of_le hnear)
          (by rw [hput]; show w.pos + 1 + (n + 1) ≤ w.size; omega)
        refine ⟨bs, hcopy, hlen, ?_⟩
        rw [hput] at hrepeats
        have hjoin : splice (splice w.buf w.pos [b]) (w.pos + 1) bs = splice w.buf w.pos (b :: bs) :=
          @splice_append Byte w.buf [b] bs w.pos (by rw [List.length_singleton]; omega)
        simp only at hrepeats
        rw [hjoin] at hrepeats
        exact hrepeats
    obtain ⟨bs, hcopy, hlen, hrepeats⟩ := hrest
    have hcons : w.pos + (b :: bs).length ≤ w.buf.length := by
      rw [List.length_cons]
      omega
    refine ⟨b :: bs, ?_, by rw [List.length_cons, hlen], ?_⟩
    · rw [bytewise, hget]
      show (bytewise dist n (w.putByteDirect b) >>= _) = _
      rw [hcopy, h.wrote_cons (by rw [hlen]; exact hfit)]
      rfl
    · intro j hj
      cases j with
      | zero =>
        rw [getElem?_splice hcons, getElem?_splice hcons, Nat.add_zero, if_neg (by omega),
          if_pos (by rw [List.length_cons]; omega), if_pos (by omega), hbyte, Nat.sub_self]
        rfl
      | succ j =>
        have hnext := hrepeats j (by omega)
        have hplace : w.pos + 1 + j = w.pos + (j + 1) := by omega
        rw [hplace] at hnext
        exact hnext

theorem read_ok {buf : List Byte} {s n : Nat} (h : s + n ≤ buf.length) :
    read buf s n = .ok (slice buf s n) := if_pos h

theorem write_ok {buf bs : List Byte} {s : Nat} (h : s + bs.length ≤ buf.length) :
    write buf s bs = .ok (splice buf s bs) := if_pos h

/-- What the loops of a near copy have done: `done` and `all` are the buffer and the slice when
all is copied. -/
structure Copying (w : SlidingWindow) (dist len : Nat) (bs out : List Byte) : Prop where
  near : dist ≤ w.pos
  fits : w.pos + len ≤ w.buf.length
  length : bs.length = len
  room : len ≤ out.length
  repeats : Repeats (splice w.buf w.pos bs) w.pos dist len

theorem Copying.lengths {out : List Byte} (h : Copying w dist len bs out) :
    (splice w.buf w.pos bs).length = w.buf.length ∧ (splice out 0 bs).length = out.length := by
  have hlen := h.length
  have hfits := h.fits
  have hroom := h.room
  exact ⟨splice_length (by omega), splice_length (by omega)⟩

/-- A chunk brings the buffer and the slice on alike. -/
theorem Copying.chunk {out : List Byte} (h : Copying w dist len bs out) {p k n : Nat} (hk : k ≤ p)
    (hn : n ≤ dist) (hkn : k + n ≤ len) :
    ∃ xs, read (upTo (splice w.buf w.pos bs) w.buf (w.pos + p)) (w.pos - dist + k) n = .ok xs ∧
      write (upTo (splice w.buf w.pos bs) w.buf (w.pos + p)) (w.pos + k) xs =
        .ok (upTo (splice w.buf w.pos bs) w.buf (w.pos + max p (k + n))) ∧
      write (upTo (splice out 0 bs) out p) k xs = .ok (upTo (splice out 0 bs) out (max p (k + n))) := by
  obtain ⟨hdone, hall⟩ := h.lengths
  have hnear := h.near
  have hfits := h.fits
  have hroom := h.room
  have hlen := h.length
  have hplace : w.pos - dist + k = w.pos + k - dist := by omega
  have hread : w.pos + k - dist + n ≤
      (upTo (splice w.buf w.pos bs) w.buf (w.pos + p)).length := by
    rw [upTo_length hdone]
    omega
  have hxs := slice_length hread
  have hwrite := Buffer.chunk (p := p) (k := k) (n := n) hdone h.repeats hfits hnear hk hn hkn
  refine ⟨_, by rw [hplace]; exact read_ok hread, ?_, ?_⟩
  · rw [write_ok (by rw [hxs, upTo_length hdone]; omega), hwrite]
  · rw [write_ok (by rw [hxs, upTo_length hall]; omega)]
    congr 1
    apply List.ext_getElem?
    intro i
    -- The chunk just written to the buffer is the chunk of the finished slice.
    have hbuf := congrArg (fun b => b[w.pos + i]?) hwrite
    have hwhole : w.pos + bs.length ≤ w.buf.length := by omega
    have hslice : 0 + bs.length ≤ out.length := by omega
    rw [getElem?_splice (by rw [hxs, upTo_length hdone]; omega), hxs, getElem?_upTo hdone,
      getElem?_upTo hdone, getElem?_splice hwhole] at hbuf
    rw [getElem?_splice (by rw [hxs, upTo_length hall]; omega), hxs, getElem?_upTo hall,
      getElem?_upTo hall, getElem?_splice hslice]
    by_cases hbefore : i < k
    · have hp : i < p := by omega
      have hmax : i < max p (k + n) := by omega
      rw [if_pos hbefore, if_pos hp, if_pos hmax]
    · rw [if_neg hbefore]
      have hbefore' : ¬ w.pos + i < w.pos + k := by omega
      have hinside' : i < k + n ↔ w.pos + i < w.pos + k + n := by omega
      rw [if_neg hbefore'] at hbuf
      by_cases hinside : i < k + n
      · have hmax : i < max p (k + n) := by omega
        have hmax' : w.pos + i < w.pos + max p (k + n) := by omega
        have hpos' : ¬ w.pos + i < w.pos := by omega
        have hbs : i < 0 + bs.length := by omega
        have hbs' : w.pos + i < w.pos + bs.length := by omega
        have hoffset : w.pos + i - (w.pos + k) = i - k := by omega
        have hoffset' : w.pos + i - w.pos = i - 0 := by omega
        rw [if_pos (hinside'.mp hinside), if_pos hmax', if_neg hpos', if_pos hbs', hoffset,
          hoffset'] at hbuf
        rw [if_pos hinside, if_pos hmax, if_neg (Nat.not_lt_zero i), if_pos hbs]
        exact hbuf
      · rw [if_neg hinside]
        by_cases hp : i < p
        · have hmax : i < max p (k + n) := by omega
          rw [if_pos hp, if_pos hmax]
        · have hmax : ¬ i < max p (k + n) := by omega
          rw [if_neg hp, if_neg hmax]

theorem index_of_read {buf xs : List Byte} {s : Nat} (h : read buf s 1 = .ok xs) :
    ∃ b, index buf s = .ok b ∧ xs = [b] := by
  unfold read at h
  split at h
  · rename_i hfit
    obtain rfl := Except.ok.inj h
    have hlt : s < buf.length := hfit
    refine ⟨buf[s], ?_, ?_⟩
    · rw [index, List.getElem?_eq_getElem hlt]
    · rw [slice, List.drop_eq_getElem_cons hlt, List.take_succ_cons, List.take_zero]
  · exact absurd h (by simp)

theorem Copying.short {out : List Byte} (h : Copying w dist len bs out) (hpos : 0 < dist) :
    ∀ n k, k + n = len →
      copyShort (w.pos - dist) w.pos n k (upTo (splice w.buf w.pos bs) w.buf (w.pos + k))
          (upTo (splice out 0 bs) out k) =
        .ok (upTo (splice w.buf w.pos bs) w.buf (w.pos + len), upTo (splice out 0 bs) out len) := by
  intro n
  induction n with
  | zero =>
    intro k hk
    rw [Nat.add_zero] at hk
    rw [hk]
    rfl
  | succ n ih =>
    intro k hk
    obtain ⟨xs, hread, hbuf, hout⟩ := h.chunk (Nat.le_refl k) hpos (by omega : k + 1 ≤ len)
    obtain ⟨b, hindex, rfl⟩ := index_of_read hread
    have hmax : max k (k + 1) = k + 1 := by omega
    rw [hmax] at hbuf hout
    rw [copyShort, hindex]
    show (write _ (w.pos + k) [b] >>= _) = _
    rw [hbuf]
    show (write _ k [b] >>= _) = _
    rw [hout]
    exact ih (k + 1) (by omega)

theorem Copying.chunks {out : List Byte} (h : Copying w dist len bs out) {m : Nat} (hm : 0 < m)
    (hdist : m ≤ dist) (hlen : m ≤ len) :
    ∀ fuel k p, k ≤ p → p < len → k + m ≤ len → (k + m = len ∨ p = k) → len - p < fuel →
      copyChunks (w.pos - dist) w.pos len m fuel k (upTo (splice w.buf w.pos bs) w.buf (w.pos + p))
          (upTo (splice out 0 bs) out p) =
        .ok (upTo (splice w.buf w.pos bs) w.buf (w.pos + len), upTo (splice out 0 bs) out len) := by
  intro fuel
  induction fuel with
  | zero => intro k p _ _ _ _ hfuel; exact absurd hfuel (Nat.not_lt_zero _)
  | succ fuel ih =>
    intro k p hk hp hfit hlast hfuel
    obtain ⟨xs, hread, hbuf, hout⟩ := h.chunk hk hdist hfit
    rw [copyChunks, hread]
    show (write _ (w.pos + k) xs >>= _) = _
    rw [hbuf]
    show (write _ k xs >>= _) = _
    rw [hout]
    show (ite _ _ _ : Except Fault _) = _
    by_cases hend : k + m = len
    · have hmax : max p (k + m) = len := by omega
      rw [if_pos hend, hmax]
      rfl
    · have hsame : p = k := hlast.resolve_left hend
      have hmax : max p (k + m) = k + m := by omega
      rw [if_neg hend, hmax]
      apply ih
      · omega
      · omega
      · omega
      · omega
      · omega

theorem upTo_none (done buf : List Byte) : upTo done buf 0 = buf := by
  rw [upTo, List.take_zero, List.drop_zero, List.nil_append]

theorem upTo_splice {buf : List Byte} {s : Nat} (h : s + bs.length ≤ buf.length) :
    upTo (splice buf s bs) buf (s + bs.length) = splice buf s bs := by
  have hlen := splice_length h
  apply List.ext_getElem?
  intro i
  rw [getElem?_upTo hlen]
  by_cases hi : i < s + bs.length
  · rw [if_pos hi]
  · rw [if_neg hi, getElem?_splice h, if_neg (by omega), if_neg hi]

theorem upTo_start {buf : List Byte} {s : Nat} (h : s + bs.length ≤ buf.length) :
    upTo (splice buf s bs) buf (s + 0) = buf := by
  have hlen := splice_length h
  apply List.ext_getElem?
  intro i
  rw [getElem?_upTo hlen, Nat.add_zero]
  by_cases hi : i < s
  · rw [if_pos hi, getElem?_splice h, if_pos hi]
  · rw [if_neg hi]

/-- The near copy, whichever loop makes it. -/
theorem Copying.near_ok {out : List Byte} (h : Copying w dist len bs out) (hpos : 0 < dist) :
    w.copyNear dist len out = .ok (splice w.buf w.pos bs, splice out 0 bs) := by
  have hlen := h.length
  have hfits := h.fits
  have hroom := h.room
  have hbuf : w.pos + bs.length ≤ w.buf.length := by omega
  have hout : 0 + bs.length ≤ out.length := by omega
  have hstart := upTo_start hbuf
  have hstart' := upTo_none (splice out 0 bs) out
  have hend := upTo_splice hbuf
  have hend' := upTo_splice hout
  rw [hlen] at hend hend'
  rw [Nat.zero_add] at hend'
  have hchunks : ∀ m, 0 < m → m ≤ dist → m ≤ len →
      copyChunks (w.pos - dist) w.pos len m (len + 1) 0 w.buf out =
        .ok (splice w.buf w.pos bs, splice out 0 bs) := by
    intro m hm hdist hmlen
    have hcopy := h.chunks hm hdist hmlen (len + 1) 0 0 (Nat.le_refl 0) (by omega) (by omega)
      (.inr rfl) (by omega)
    rw [hstart, hstart', hend, hend'] at hcopy
    exact hcopy
  unfold copyNear
  by_cases hshort : len < 8 ∨ dist < 8
  · rw [if_pos hshort]
    have hcopy := h.short hpos len 0 (by omega)
    rw [hstart, hstart', hend, hend'] at hcopy
    exact hcopy
  · rw [if_neg hshort]
    by_cases hwide : 16 ≤ dist ∧ 16 ≤ len
    · rw [if_pos hwide]
      exact hchunks 16 (by omega) hwide.1 hwide.2
    · rw [if_neg hwide]
      exact hchunks 8 (by omega) (by omega) (by omega)

/-- The byte just put is the one before the cursor. -/
theorem Placed.getByte_put (h : w.Placed) (b : Byte) : (w.putByteDirect b).getByte 1 = .ok b := by
  have hlength := h.length
  have hinside := h.inside
  rw [h.putByteDirect_eq]
  unfold SlidingWindow.wrote
  have hbyte : (splice w.buf w.pos [b])[w.pos]? = some b := by
    rw [getElem?_splice (by rw [List.length_singleton]; omega), if_neg (Nat.lt_irrefl _),
      if_pos (by rw [List.length_singleton]; omega), Nat.sub_self]
    rfl
  by_cases hlast : w.pos + 1 = w.size
  · rw [advance_around (by exact hlast)]
    unfold getByte
    simp only
    have hplace : w.size - 1 + 0 = w.pos := by omega
    rw [if_neg (by omega), if_neg (by omega), hplace, index, hbyte]
  · rw [advance_within (by show w.pos + 1 < w.size; omega)]
    unfold getByte
    simp only [List.length_singleton]
    rw [if_pos (by omega), Nat.add_sub_cancel, index, hbyte]

/-- A run repeats the byte before it. -/
theorem Placed.bytewise_run {b : Byte} :
    ∀ n {w : SlidingWindow}, w.Placed → w.getByte 1 = .ok b → w.pos + n ≤ w.size →
      bytewise 1 n w = .ok (List.replicate n b, w.wrote (List.replicate n b)) := by
  intro n
  induction n with
  | zero =>
    intro w h _ _
    rw [List.replicate_zero, h.wrote_nil]
    rfl
  | succ n ih =>
    intro w h hget hfit
    have hrest : bytewise 1 n (w.putByteDirect b) =
        .ok (List.replicate n b, (w.putByteDirect b).wrote (List.replicate n b)) := by
      cases n with
      | zero =>
        rw [List.replicate_zero, (h.putByteDirect b).wrote_nil]
        rfl
      | succ n =>
        have hput : w.putByteDirect b = { w with
            buf := splice w.buf w.pos [b], pos := w.pos + 1, totalPos := w.totalPos + 1 } := by
          rw [h.putByteDirect_eq]
          exact advance_within (by show w.pos + 1 < w.size; omega)
        apply ih (h.putByteDirect b) (h.getByte_put b)
        rw [hput]
        show w.pos + 1 + (n + 1) ≤ w.size
        omega
    rw [bytewise, hget, List.replicate_succ]
    show (bytewise 1 n (w.putByteDirect b) >>= _) = _
    rw [hrest, h.wrote_cons (by rw [List.length_replicate]; exact hfit)]
    rfl

/-- After a run, the byte before the cursor is the run's. -/
theorem Placed.getByte_run {b : Byte} :
    ∀ n {w w' : SlidingWindow} {bs}, w.Placed → w.getByte 1 = .ok b →
      bytewise 1 n w = .ok (bs, w') → w'.getByte 1 = .ok b := by
  intro n
  induction n with
  | zero =>
    intro w w' bs _ hget h
    obtain ⟨_, rfl⟩ := Prod.mk.inj (Except.ok.inj h)
    exact hget
  | succ n ih =>
    intro w w' bs hwf hget h
    rw [bytewise, hget] at h
    obtain ⟨_, hb, h⟩ := Except.bind_eq_ok.mp h
    obtain rfl := Except.ok.inj hb
    obtain ⟨⟨bs', w₁⟩, hcopy, hdone⟩ := Except.bind_eq_ok.mp h
    obtain ⟨_, rfl⟩ := Prod.mk.inj (Except.ok.inj hdone)
    exact ih (hwf.putByteDirect b) (hwf.getByte_put b) hcopy

theorem Placed.fillRun_ok {b : Byte} :
    ∀ fuel n {w : SlidingWindow}, w.Placed → w.getByte 1 = .ok b → n < fuel →
      ∃ w', fillRun b fuel n w = .ok w' ∧ bytewise 1 n w = .ok (List.replicate n b, w') := by
  intro fuel
  induction fuel with
  | zero => intro n w _ _ h; exact absurd h (Nat.not_lt_zero _)
  | succ fuel ih =>
    intro n w h hget hfuel
    rw [fillRun]
    by_cases hzero : n = 0
    · subst hzero
      rw [if_pos rfl]
      exact ⟨w, rfl, rfl⟩
    · rw [if_neg hzero]
      have hlength := h.length
      have hinside := h.inside
      obtain ⟨m, hm⟩ : ∃ m, m = min n (w.size - w.pos) := ⟨_, rfl⟩
      have hsplit : m + (n - m) = n := by omega
      have hrun := Placed.bytewise_run m h hget (by omega)
      have hwf : (w.wrote (List.replicate m b)).Placed := h.wrote (by rw [List.length_replicate]; omega)
      obtain ⟨w', hfill, hrest⟩ := ih (n - m) hwf (Placed.getByte_run m h hget hrun) (by omega)
      refine ⟨w', ?_, ?_⟩
      · show (write w.buf w.pos (List.replicate (min n (w.size - w.pos)) b) >>= _) = _
        rw [← hm, write_ok (by rw [List.length_replicate]; omega)]
        unfold SlidingWindow.wrote at hfill
        rw [List.length_replicate] at hfill
        exact hfill
      · have hadd := @bytewise_add 1 (n - m) m w
        rw [hsplit, hrun] at hadd
        rw [hadd]
        show (bytewise 1 (n - m) (w.wrote (List.replicate m b)) >>= _) = _
        rw [hrest]
        show Except.ok (List.replicate m b ++ List.replicate (n - m) b, w') = _
        rw [List.replicate_append_replicate, hsplit]

/-- The copy that wraps, chunk by chunk. -/
theorem Placed.copyWrapping_ok (hpos : 0 < dist) :
    ∀ fuel n {w : SlidingWindow} (outOff : Nat) (out : List Byte), w.Placed → dist ≤ w.size → n < fuel →
      outOff + n ≤ out.length →
      ∃ bs w', bytewise dist n w = .ok (bs, w') ∧
        copyWrapping dist fuel n outOff w out = .ok (splice out outOff bs, w') := by
  intro fuel
  induction fuel with
  | zero => intro n w outOff out _ _ h; exact absurd h (Nat.not_lt_zero _)
  | succ fuel ih =>
    intro n w outOff out h hdist hfuel hroom
    rw [copyWrapping]
    by_cases hzero : n = 0
    · subst hzero
      rw [if_pos rfl]
      exact ⟨[], w, rfl, by rw [splice_nil]⟩
    · rw [if_neg hzero]
      have hlength := h.length
      have hinside := h.inside
      have hsource := (h.getByte_source hpos hdist).2
      obtain ⟨m, hm⟩ : ∃ m, m = min (min (min n (w.size - w.source dist)) (w.size - w.pos)) dist :=
        ⟨_, rfl⟩
      have hsplit : m + (n - m) = n := by omega
      have hchunk := Placed.bytewise_chunk hpos m h hdist (by omega) (by omega) (by omega)
      obtain ⟨xs, hxs⟩ : ∃ xs, xs = slice w.buf (w.source dist) m := ⟨_, rfl⟩
      have hlen : xs.length = m := by
        rw [hxs]
        exact slice_length (by omega)
      rw [← hxs] at hchunk
      have hwf : (w.wrote xs).Placed := h.wrote (by omega)
      have hsize : (w.wrote xs).size = w.size := advance_size _ _
      obtain ⟨bs, w', hrest, hgo⟩ := ih (n - m) (outOff + m) (splice out outOff xs) hwf
        (by rw [hsize]; exact hdist) (by omega)
        (by rw [splice_length (by omega)]; omega)
      have hbs : bs.length = n - m := by
        obtain ⟨bs', w'', hcopy, hlen', _⟩ := Placed.bytewise_ok hpos (n - m) hwf
          (by rw [hsize]; exact hdist)
        obtain ⟨rfl, _⟩ := Prod.mk.inj (Except.ok.inj (hcopy.symm.trans hrest))
        exact hlen'
      refine ⟨xs ++ bs, w', ?_, ?_⟩
      · have hadd := @bytewise_add dist (n - m) m w
        rw [hsplit, hchunk] at hadd
        rw [hadd]
        show (bytewise dist (n - m) (w.wrote xs) >>= _) = _
        rw [hrest]
        rfl
      · show (read w.buf (w.source dist)
          (min (min (min n (w.size - w.source dist)) (w.size - w.pos)) dist) >>= _) = _
        rw [← hm, read_ok (by omega), ← hxs]
        show (write w.buf w.pos xs >>= _) = _
        rw [write_ok (by omega)]
        show (write out outOff xs >>= _) = _
        rw [write_ok (by omega)]
        unfold SlidingWindow.wrote at hgo
        rw [hlen] at hgo
        have hm' : min (min (min n (w.size - w.source dist)) (w.size - w.pos)) dist = m := hm.symm
        unfold source at hm'
        show copyWrapping dist fuel _ _ (advance { w with buf := splice w.buf w.pos xs } _) _ = _
        rw [hm', hgo, ← hlen, splice_append (by omega)]

/-- The block copy leaves the window and the slice as the bytewise copy does. -/
theorem Placed.copyMatchInto_eq (h : w.Placed) (hpos : 0 < dist) (hdist : dist ≤ w.size) (len : Nat)
    {out : List Byte} (hroom : len ≤ out.length) :
    ∃ bs w', bytewise dist len w = .ok (bs, w') ∧
      w.copyMatchInto dist len out = .ok (splice out 0 bs, w') := by
  have hlength := h.length
  have hinside := h.inside
  unfold copyMatchInto
  by_cases hnear : dist ≤ w.pos ∧ w.pos + len ≤ w.size ∧ (8 ≤ len ∧ 8 ≤ dist ∨ len < 16)
  · rw [if_pos hnear]
    obtain ⟨bs, hcopy, hlen, hrepeats⟩ := Placed.bytewise_near hpos len h hnear.1 hnear.2.1
    have hcopying : Copying w dist len bs out :=
      { near := hnear.1, fits := by omega, length := hlen, room := hroom, repeats := hrepeats }
    refine ⟨bs, _, hcopy, ?_⟩
    rw [hcopying.near_ok hpos]
    unfold SlidingWindow.wrote
    rw [hlen]
    rfl
  · rw [if_neg hnear]
    by_cases hone : dist = 1
    · subst hone
      rw [if_pos rfl]
      obtain ⟨b, hget, _⟩ := h.getByte_ok hpos hdist
      obtain ⟨w', hfill, hrun⟩ := Placed.fillRun_ok (len + 1) len h hget (Nat.lt_succ_self _)
      refine ⟨_, w', hrun, ?_⟩
      rw [hget]
      show (write out 0 (List.replicate len b) >>= _) = _
      rw [write_ok (by rw [List.length_replicate]; omega)]
      show (fillRun b (len + 1) len w >>= _) = _
      rw [hfill]
      rfl
    · rw [if_neg hone]
      exact Placed.copyWrapping_ok hpos (len + 1) len 0 out h hdist (Nat.lt_succ_self _) (by omega)

/-- A run of bytes written in chunks is written byte by byte. -/
theorem Placed.wrote_foldl (h : w.Placed) :
    ∀ {bs}, w.pos + bs.length ≤ w.size → w.wrote bs = bs.foldl SlidingWindow.putByteDirect w := by
  intro bs
  induction bs generalizing w with
  | nil => intro _; exact h.wrote_nil
  | cons b bs ih =>
    intro hfit
    rw [List.length_cons] at hfit
    rw [h.wrote_cons hfit]
    cases bs with
    | nil => exact (h.putByteDirect b).wrote_nil
    | cons b' bs =>
      apply ih (h.putByteDirect b)
      rw [Placed.putByteDirect_size, h.putByteDirect_eq]
      unfold SlidingWindow.wrote
      rw [List.length_cons] at hfit
      rw [advance_within (by rw [List.length_singleton]; show w.pos + 1 < w.size; omega),
        List.length_cons]
      show w.pos + 1 + (bs.length + 1) ≤ w.size
      omega

theorem Placed.putSlice_ok :
    ∀ fuel {w : SlidingWindow} {src : List Byte}, w.Placed → src.length < fuel →
      putSlice fuel w src = .ok (src.foldl SlidingWindow.putByteDirect w) := by
  intro fuel
  induction fuel with
  | zero => intro w src _ h; exact absurd h (Nat.not_lt_zero _)
  | succ fuel ih =>
    intro w src h hfuel
    rw [putSlice]
    by_cases hnil : src = []
    · rw [if_pos hnil, hnil]
      rfl
    · have hlength := h.length
      have hinside := h.inside
      have hmore := List.length_pos_iff.mpr hnil
      obtain ⟨n, hn⟩ : ∃ n, n = min src.length (w.size - w.pos) := ⟨_, rfl⟩
      have htake : (src.take n).length = n := by
        rw [List.length_take]
        omega
      have hfold : src.foldl SlidingWindow.putByteDirect w =
          (src.drop n).foldl SlidingWindow.putByteDirect (w.wrote (src.take n)) := by
        rw [h.wrote_foldl (by omega), ← List.foldl_append, List.take_append_drop]
      rw [if_neg hnil, hfold]
      show (write w.buf w.pos (src.take (min src.length (w.size - w.pos))) >>= _) = _
      rw [← hn, write_ok (by omega)]
      have hwrote : w.wrote (src.take n) =
          advance { w with buf := splice w.buf w.pos (src.take n) } n := by
        unfold SlidingWindow.wrote
        rw [htake]
      rw [hwrote]
      apply ih
      · rw [← hwrote]
        exact h.wrote (by omega)
      · rw [List.length_drop]
        omega

/-! ## The copies and the byte loop -/

/-- How many bytes of the window were written. -/
def live (w : SlidingWindow) : Nat := if w.isFull then w.size else w.pos

/-- `copy_match`: `len` times `put_byte(get_byte(dist))`. -/
def copyMatch (dist : Nat) : Nat → SlidingWindow → Except Fault SlidingWindow
  | 0, w => .ok w
  | n + 1, w => do
    let b ← w.getByte dist
    copyMatch dist n (w.putByte b)

theorem Placed.live_le (h : w.Placed) : w.live ≤ w.size := by
  have hinside := h.inside
  unfold live
  split <;> omega

/-- The window with more bytes pending. -/
def withPending (w : SlidingWindow) (bs : List Byte) : SlidingWindow :=
  { w with pendingOut := w.pendingOut ++ bs }

theorem putByte_withPending (w : SlidingWindow) (bs : List Byte) (b : Byte) :
    (w.withPending bs).putByte b = (w.putByteDirect b).withPending (bs ++ [b]) := by
  unfold putByte putByteDirect withPending advance
  simp only
  split <;> simp only [List.append_assoc]

/-- The byte loop keeps for later what the direct one hands out. -/
theorem copyMatch_eq (dist : Nat) :
    ∀ n {w w' : SlidingWindow} {bs : List Byte} (before : List Byte),
      bytewise dist n w = .ok (bs, w') →
      copyMatch dist n (w.withPending before) = .ok (w'.withPending (before ++ bs)) := by
  intro n
  induction n with
  | zero =>
    intro w w' bs before h
    obtain ⟨rfl, rfl⟩ := Prod.mk.inj (Except.ok.inj h)
    rw [List.append_nil]
    rfl
  | succ n ih =>
    intro w w' bs before h
    obtain ⟨b, hget, hrest⟩ := Except.bind_eq_ok.mp h
    obtain ⟨⟨bs', w''⟩, hloop, hsame⟩ := Except.bind_eq_ok.mp hrest
    obtain ⟨rfl, rfl⟩ := Prod.mk.inj (Except.ok.inj hsame)
    show ((w.withPending before).getByte dist >>= _) = _
    have hget' : (w.withPending before).getByte dist = .ok b := hget
    rw [hget']
    show copyMatch dist n ((w.withPending before).putByte b) = _
    rw [putByte_withPending, ih (before ++ [b]) hloop, List.append_assoc]
    rfl

theorem foldl_putByte (before : List Byte) :
    ∀ (data : List Byte) (w : SlidingWindow), data.foldl SlidingWindow.putByte (w.withPending before) =
      (data.foldl SlidingWindow.putByteDirect w).withPending (before ++ data) := by
  intro data
  induction data generalizing before with
  | nil => intro w; rw [List.append_nil]; rfl
  | cons b data ih =>
    intro w
    rw [List.foldl_cons, putByte_withPending, ih (before ++ [b]), List.append_assoc]
    rfl

theorem bytewise_pendingOut (dist : Nat) :
    ∀ n {w w' : SlidingWindow} {bs : List Byte}, bytewise dist n w = .ok (bs, w') →
      w'.pendingOut = w.pendingOut := by
  intro n
  induction n with
  | zero =>
    intro w w' bs h
    obtain ⟨_, rfl⟩ := Prod.mk.inj (Except.ok.inj h)
    rfl
  | succ n ih =>
    intro w w' bs h
    obtain ⟨b, _, hrest⟩ := Except.bind_eq_ok.mp h
    obtain ⟨⟨bs', w''⟩, hloop, hsame⟩ := Except.bind_eq_ok.mp hrest
    obtain ⟨_, rfl⟩ := Prod.mk.inj (Except.ok.inj hsame)
    rw [ih hloop]
    exact advance_pendingOut _ 1

theorem foldl_pendingOut (data : List Byte) :
    ∀ w : SlidingWindow, (data.foldl SlidingWindow.putByteDirect w).pendingOut = w.pendingOut := by
  induction data with
  | nil => intro w; rfl
  | cons b data ih =>
    intro w
    rw [List.foldl_cons, ih]
    exact advance_pendingOut _ 1

/-- The block copy, and the block write, leave the window as the byte loop does but for what
is pending, and write to the slice what the byte loop would have pending. -/
theorem block_copies_bytewise (h : w.Placed) :
    (∀ (dist len : Nat) (out : List Byte), 0 < dist → dist ≤ w.live → len ≤ out.length →
      ∃ bs w', w.copyMatchInto dist len out = .ok (bs ++ out.drop len, w') ∧ bs.length = len ∧
        copyMatch dist len w = .ok (w'.withPending bs) ∧ w'.pendingOut = w.pendingOut) ∧
    ∀ data : List Byte, ∃ w', w.putSliceDirect data = .ok w' ∧
      data.foldl SlidingWindow.putByte w = w'.withPending data ∧ w'.pendingOut = w.pendingOut := by
  have hnothing : w.withPending [] = w := by
    unfold withPending
    rw [List.append_nil]
  constructor
  · intro dist len out hpos hdist hroom
    have hsize : dist ≤ w.size := Nat.le_trans hdist h.live_le
    obtain ⟨bs, w', hloop, hcopy⟩ := h.copyMatchInto_eq hpos hsize len hroom
    obtain ⟨bs', w'', hloop', hlen, hkept⟩ := Placed.bytewise_ok hpos len h hsize
    obtain ⟨rfl, rfl⟩ := Prod.mk.inj (Except.ok.inj (hloop.symm.trans hloop'))
    have hmatch := copyMatch_eq dist len [] hloop
    rw [hnothing, List.nil_append] at hmatch
    refine ⟨bs, w', ?_, hlen, hmatch, ?_⟩
    · rw [hcopy, splice, List.take_zero, List.nil_append, Nat.zero_add, hlen]
    · exact bytewise_pendingOut dist len hloop
  · intro data
    refine ⟨data.foldl SlidingWindow.putByteDirect w, Placed.putSlice_ok _ h (Nat.lt_succ_self _), ?_, ?_⟩
    · have hfold := foldl_putByte [] data w
      rwa [hnothing, List.nil_append] at hfold
    · exact foldl_pendingOut data w

/-- A full window of four bytes. -/
def wrappedWindow : SlidingWindow :=
  { buf := [1, 2, 3, 4]
    pos := 1
    size := 4
    isFull := true
    totalPos := 5
    pendingOut := [] }

/-- A copy around the end of the window that overlaps itself. -/
theorem block_copies_bytewise_wrapped :
    ∃ bs w', wrappedWindow.copyMatchInto 3 5 [0, 0, 0, 0, 0, 9] = .ok (bs ++ [9], w') ∧
      bs.length = 5 ∧ copyMatch 3 5 wrappedWindow = .ok (w'.withPending bs) := by
  have hplaced : wrappedWindow.Placed := ⟨rfl, by decide⟩
  obtain ⟨bs, w', hcopy, hlen, hmatch, _⟩ := (block_copies_bytewise hplaced).1 3 5 [0, 0, 0, 0, 0, 9]
    (by decide) (by decide) (by decide)
  exact ⟨bs, w', hcopy, hlen, hmatch⟩

end SlidingWindow
end Iluvatar
