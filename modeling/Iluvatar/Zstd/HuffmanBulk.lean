/-
Bulk decoding of literals agrees with the plain decoder.
-/
import Iluvatar.Zstd.HuffmanRounds

namespace Iluvatar

variable {entries : List HufEntry} {tableLog : Nat}

/-! ## The streams finished -/

/-- Where the shares begin. -/
def shareStarts : Nat → List (PlainReader × Nat) → List Nat
  | _, [] => []
  | base, (_, share) :: starts => base :: shareStarts (base + share) starts

/-- Each stream is finished as the plain decoder decodes it. -/
theorem finishStreams_plain (h : HuffmanTable.isValid entries tableLog = true) {base : Nat} {streams : List HufStream}
    {starts : List (PlainReader × Nat)} {orig out : List Byte}
    (hshares : Shares (HuffmanTable.new entries tableLog) base streams starts orig out) :
    ∀ (before : List Byte) (i : Nat), before.length = base →
      finishStreams (HuffmanTable.new entries tableLog) i (streams.zip (shareStarts base starts)) (before ++ out) =
        ((HuffmanTable.new entries tableLog).plainStreams i starts).map (before ++ ·) := by
  induction hshares with
  | nil =>
    intro before i _
    rfl
  | @cons base s streams start starts orig origs out outs hshare _ ih =>
    intro before i hbefore
    obtain ⟨hlength, hlow, hhigh, hstop, _, p, hat, hplain⟩ := hshare
    have hcount := (HuffmanTable.new entries tableLog).plainSymbols_le (s.stop - s.pos) p
    obtain ⟨s', htail, hpos', hstop'⟩ := HufStream.tail_plain h (before ++ (out ++ outs)) hat hhigh (by
      rw [List.length_append, List.length_append]
      omega)
    rw [written_within (by omega) (by omega), hbefore] at htail
    have hsymbols : ((HuffmanTable.new entries tableLog).plainSymbols orig.length start).length =
        s.pos - base + ((HuffmanTable.new entries tableLog).plainSymbols (s.stop - s.pos) p).length := by
      rw [← hplain, List.length_append, List.length_take_of_le (by omega)]
    rw [shareStarts, List.zip_cons_cons, finishStreams, htail, HuffmanTable.plainStreams]
    simp only [bind, Except.bind]
    by_cases hall : ((HuffmanTable.new entries tableLog).plainSymbols orig.length start).length = orig.length
    · have hdone : s'.pos = s'.stop := by omega
      have hwhole : written out (s.pos - base) ((HuffmanTable.new entries tableLog).plainSymbols (s.stop - s.pos) p) =
          (HuffmanTable.new entries tableLog).plainSymbols orig.length start := by
        rw [written, List.drop_eq_nil_of_le (by omega), List.append_nil]
        exact hplain
      rw [if_neg (not_not_intro hdone), if_neg (not_not_intro hall), hwhole, ← List.append_assoc,
        ih _ (i + 1) (by rw [List.length_append, hbefore, hall])]
      cases (HuffmanTable.new entries tableLog).plainStreams (i + 1) starts with
      | error e => rfl
      | ok rest =>
        show Except.ok (before ++ _ ++ rest) = Except.ok (before ++ (_ ++ rest))
        rw [List.append_assoc]
    · have hshort : s'.pos ≠ s'.stop := by omega
      have hgot : s'.pos - base = ((HuffmanTable.new entries tableLog).plainSymbols orig.length start).length := by omega
      have hwanted : s'.stop - base = orig.length := by omega
      rw [if_pos hshort, if_pos hall, hgot, hwanted]
      rfl

/-! ## The streams begun -/

/-- The streams are begun as the plain decoder's are. -/
theorem startStreams_markers (t : HuffmanTable) (srcs : List (List Byte)) : ∀ (base : Nat) (sizes : List Nat),
    srcs.length = sizes.length →
    (∃ f, HuffmanTable.markers srcs sizes = .error f ∧ startStreams base srcs sizes = .error f) ∨
      ∃ starts streams, HuffmanTable.markers srcs sizes = .ok starts ∧ startStreams base srcs sizes = .ok streams ∧
        streams.map (·.2) = shareStarts base starts ∧ streams.length = srcs.length ∧
        (∀ s ∈ streams.map (·.1), s.stop ≤ base + sizes.sum) ∧
        ∀ out : List Byte, out.length = sizes.sum → Shares t base (streams.map (·.1)) starts out out := by
  induction srcs with
  | nil =>
    intro base sizes hlength
    obtain rfl := List.eq_nil_of_length_eq_zero hlength.symm
    refine .inr ⟨[], [], rfl, rfl, rfl, rfl, fun s hs => absurd hs (by simp), fun out hout => ?_⟩
    obtain rfl := List.eq_nil_of_length_eq_zero hout
    exact .nil
  | cons src srcs ih =>
    intro base sizes hlength
    match sizes with
    | [] => exact absurd hlength (by simp)
    | share :: sizes =>
      rw [HuffmanTable.markers, startStreams]
      match initStreamBits src with
      | .error f => exact .inl ⟨f, rfl, rfl⟩
      | .ok total =>
        simp only [bind, Except.bind]
        rcases ih (base + share) sizes (Nat.succ.inj hlength) with
          ⟨f, hmarkers, hstreams⟩ | ⟨starts, streams, hmarkers, hstreams, hstarts, hcount, hstops, hshares⟩
        · rw [hmarkers, hstreams]
          exact .inl ⟨f, rfl, rfl⟩
        · rw [hmarkers, hstreams]
          refine .inr ⟨_, _, rfl, rfl, ?_, congrArg (· + 1) hcount, ?_, fun out hout => ?_⟩
          · show base :: streams.map (·.2) = base :: shareStarts (base + share) starts
            rw [hstarts]
          · intro s hs
            rw [List.sum_cons]
            rcases List.mem_cons.mp hs with rfl | hs
            · show base + share ≤ base + (share + sizes.sum)
              omega
            · have := hstops s hs
              omega
          · rw [List.sum_cons] at hout
            have htake : (out.take share).length = share := List.length_take_of_le (by omega)
            have hdrop : (out.drop share).length = sizes.sum := by
              rw [List.length_drop]
              omega
            have hrest : Shares t (base + (out.take share).length) (streams.map (·.1)) starts (out.drop share)
                (out.drop share) := by
              rw [htake]
              exact hshares (out.drop share) hdrop
            have hfirst : Share t base { src, rem := total, pos := base, stop := base + share }
                { data := src, total, taken := 0 } (out.take share) (out.take share) := by
              refine ⟨rfl, Nat.le_refl _, Nat.le_add_right _ _, ?_, rfl, { data := src, total, taken := 0 },
                ⟨rfl, Nat.zero_le _, rfl⟩, ?_⟩
              · rw [htake]
              · rw [htake]
                show (out.take share).take (base - base) ++ t.plainSymbols (base + share - base) _ = _
                rw [Nat.sub_self, Nat.add_sub_cancel_left]
                rfl
            have hcons := Shares.cons hfirst hrest
            rw [List.take_append_drop, htake] at hcons
            exact hcons

theorem shares_sum (n : Nat) : (shares n).sum = n := by
  unfold shares
  simp only [List.sum_cons, List.sum_nil]
  omega

theorem jumpTable_four {src : List Byte} {srcs : List (List Byte)} (h : jumpTable src = .ok srcs) : srcs.length = 4 := by
  unfold jumpTable at h
  split at h
  · simp only at h
    split at h
    · cases h
    · obtain rfl := Except.ok.inj h
      rfl
  · cases h

/-- Bulk decoding of literals with a table, as plain decoding has it. -/
structure DecodesPlainly (t : HuffmanTable) : Prop where
  /-- One stream gives the same literals, or the same error. -/
  one : ∀ src out, decompressHuffman1Stream t src out = t.plain1Stream src out.length
  /-- So do four. -/
  four : ∀ src out, decompressHuffman4Streams t src out = t.plain4Streams src out.length
  /-- Neither reads or writes out of range, nor does a count underflow or a loop go on. -/
  safe : ∀ src out, (∀ f, decompressHuffman1Stream t src out = .error f → ∃ text, f = .error text) ∧
    ∀ f, decompressHuffman4Streams t src out = .error f → ∃ text, f = .error text
  /-- The rounds write the first symbols of each stream in its own share, and nothing else. -/
  rounds : ∀ src srcs streams (out : List Byte), jumpTable src = .ok srcs →
    startStreams 0 srcs (shares out.length) = .ok streams →
    ∃ starts decoded out', HuffmanTable.markers srcs (shares out.length) = .ok starts ∧
      decode4StreamsFast (if t.tableLog ≤ 11 then 5 else 4) t (streams.map (·.1)) out = .ok (decoded, out') ∧
      Shares t 0 decoded starts out out'
  /-- The rest of a stream is written from its position on, within its share. -/
  tail : ∀ (s : HufStream) p out, s.At p → s.pos ≤ s.stop → s.stop ≤ out.length →
    ∃ s', s.tail t out = .ok (s', written out s.pos (t.plainSymbols (s.stop - s.pos) p))

theorem plainStreams_safe (t : HuffmanTable) (starts : List (PlainReader × Nat)) : ∀ {i : Nat} {f : ZstdFault},
    t.plainStreams i starts = .error f → ∃ text, f = .error text := by
  induction starts with
  | nil =>
    intro i f h
    cases h
  | cons start starts ih =>
    intro i f h
    obtain ⟨p, share⟩ := start
    rw [HuffmanTable.plainStreams] at h
    split at h
    · injection h with h
      exact ⟨_, h.symm⟩
    · cases hrest : t.plainStreams (i + 1) starts with
      | error g =>
        rw [hrest] at h
        injection h with h
        exact h ▸ ih hrest
      | ok rest =>
        rw [hrest] at h
        cases h

theorem initStreamBits_safe {src : List Byte} {f : ZstdFault} (h : initStreamBits src = .error f) :
    ∃ text, f = .error text := by
  unfold initStreamBits at h
  split at h
  · injection h with h
    exact ⟨_, h.symm⟩
  · cases h

theorem markers_safe (srcs : List (List Byte)) : ∀ {sizes : List Nat} {f : ZstdFault},
    HuffmanTable.markers srcs sizes = .error f → ∃ text, f = .error text := by
  induction srcs with
  | nil =>
    intro sizes f h
    cases h
  | cons src srcs ih =>
    intro sizes f h
    match sizes with
    | [] => cases h
    | share :: sizes =>
      rw [HuffmanTable.markers] at h
      cases hsrc : initStreamBits src with
      | error g =>
        rw [hsrc] at h
        injection h with h
        exact h ▸ initStreamBits_safe hsrc
      | ok total =>
        rw [hsrc] at h
        simp only [bind, Except.bind] at h
        cases hrest : HuffmanTable.markers srcs sizes with
        | error g =>
          rw [hrest] at h
          injection h with h
          exact h ▸ ih hrest
        | ok streams =>
          rw [hrest] at h
          cases h

theorem jumpTable_safe {src : List Byte} {f : ZstdFault} (h : jumpTable src = .error f) : ∃ text, f = .error text := by
  unfold jumpTable at h
  split at h
  · simp only at h
    split at h
    · injection h with h
      exact ⟨_, h.symm⟩
    · cases h
  · injection h with h
    exact ⟨_, h.symm⟩

theorem plain4Streams_safe {t : HuffmanTable} {src : List Byte} {n : Nat} {f : ZstdFault}
    (h : t.plain4Streams src n = .error f) : ∃ text, f = .error text := by
  unfold HuffmanTable.plain4Streams at h
  cases hsrcs : jumpTable src with
  | error g =>
    rw [hsrcs] at h
    injection h with h
    exact h ▸ jumpTable_safe hsrcs
  | ok srcs =>
    rw [hsrcs] at h
    simp only [bind, Except.bind] at h
    split at h
    · cases h
    · split at h
      · injection h with h
        exact ⟨_, h.symm⟩
      · cases hmarkers : HuffmanTable.markers srcs (shares n) with
        | error g =>
          rw [hmarkers] at h
          injection h with h
          exact h ▸ markers_safe srcs hmarkers
        | ok starts =>
          rw [hmarkers] at h
          exact plainStreams_safe t starts h

theorem plain1Stream_safe {t : HuffmanTable} {src : List Byte} {n : Nat} {f : ZstdFault}
    (h : t.plain1Stream src n = .error f) : ∃ text, f = .error text := by
  unfold HuffmanTable.plain1Stream at h
  split at h
  · split at h
    · cases h
    · injection h with h
      exact ⟨_, h.symm⟩
  · cases hsrc : initStreamBits src with
    | error g =>
      rw [hsrc] at h
      injection h with h
      exact h ▸ initStreamBits_safe hsrc
    | ok total =>
      rw [hsrc] at h
      simp only [bind, Except.bind] at h
      split at h
      · injection h with h
        exact ⟨_, h.symm⟩
      · cases h

theorem valid_new (h : HuffmanTable.isValid entries tableLog = true) :
    (HuffmanTable.new entries tableLog).valid = true := h

theorem decompressHuffman1Stream_plain (h : HuffmanTable.isValid entries tableLog = true) (src out : List Byte) :
    decompressHuffman1Stream (HuffmanTable.new entries tableLog) src out =
      (HuffmanTable.new entries tableLog).plain1Stream src out.length := by
  unfold decompressHuffman1Stream HuffmanTable.plain1Stream
  split
  · match out with
    | [] => rfl
    | b :: out => rfl
  · cases hsrc : initStreamBits src with
    | error f => rfl
    | ok total =>
      simp only [bind, Except.bind]
      rw [valid_new h, if_neg (fun hbad => Bool.noConfusion hbad)]
      obtain ⟨s', htail, hpos, _⟩ := HufStream.tail_plain h (s := { src, rem := total, pos := 0, stop := out.length })
        (p := { data := src, total, taken := 0 }) out ⟨rfl, Nat.zero_le _, rfl⟩ (Nat.zero_le _) (Nat.le_refl _)
      rw [htail]
      simp only [Nat.sub_zero, Nat.zero_add] at hpos ⊢
      rw [hpos]
      by_cases hall : ((HuffmanTable.new entries tableLog).plainSymbols out.length
          { data := src, total, taken := 0 }).length = out.length
      · rw [if_neg (not_not_intro hall), if_neg (not_not_intro hall), written, List.take_zero, List.nil_append, Nat.zero_add,
          List.drop_eq_nil_of_le (Nat.le_of_eq hall.symm), List.append_nil]
      · rw [if_pos hall, if_pos hall]

/-- The rounds of four streams. -/
theorem rounds_plain (h : HuffmanTable.isValid entries tableLog = true) {src out : List Byte} {srcs : List (List Byte)} {streams : List (HufStream × Nat)}
    (hsrcs : jumpTable src = .ok srcs) (hstreams : startStreams 0 srcs (shares out.length) = .ok streams) :
    ∃ starts decoded out', HuffmanTable.markers srcs (shares out.length) = .ok starts ∧
      streams.map (·.2) = shareStarts 0 starts ∧
      decode4StreamsFast (if tableLog ≤ 11 then 5 else 4) (HuffmanTable.new entries tableLog) (streams.map (·.1)) out =
        .ok (decoded, out') ∧
      Shares (HuffmanTable.new entries tableLog) 0 decoded starts out out' := by
  have hlog := (HuffmanTable.isValid_log h).2
  have hfour := jumpTable_four hsrcs
  rcases startStreams_markers (HuffmanTable.new entries tableLog) srcs 0 (shares out.length) hfour with
    ⟨f, _, hbad⟩ | ⟨starts, streams', hmarkers, hgood, hstarts, hcount, hstops, hshares⟩
  · rw [hstreams] at hbad
    cases hbad
  · obtain rfl := Except.ok.inj (hgood.symm.trans hstreams)
    rw [shares_sum, Nat.zero_add] at hstops
    have hwhole := hshares out (shares_sum out.length).symm
    have hsome : ∃ s ∈ streams'.map (·.1), s.stop - s.pos < out.length + 1 := by
      match streams', hcount with
      | [], hcount =>
        rw [hfour] at hcount
        cases hcount
      | s :: rest, _ =>
        have := hstops s.1 (List.mem_cons_self ..)
        exact ⟨s.1, List.mem_cons_self .., by omega⟩
    have hrounds : 0 < (if tableLog ≤ 11 then 5 else 4) ∧ (if tableLog ≤ 11 then 5 else 4) ≤ 8 ∧
        (if tableLog ≤ 11 then 5 else 4) * tableLog ≤ 56 := by
      split
      · omega
      · omega
    generalize (if tableLog ≤ 11 then 5 else 4) = k at hrounds ⊢
    obtain ⟨hpos, hk, hbits⟩ := hrounds
    obtain ⟨decoded, out', hfast, hdecoded⟩ := HufStream.fastLoop_shares h hpos hk hbits (out.length + 1) hwhole hsome
    refine ⟨starts, decoded, out', hmarkers, hstarts, ?_, hdecoded⟩
    rw [decode4StreamsFast]
    exact (if_pos ⟨hk, hbits⟩).trans hfast

theorem decompressHuffman4Streams_plain (h : HuffmanTable.isValid entries tableLog = true) (src out : List Byte) :
    decompressHuffman4Streams (HuffmanTable.new entries tableLog) src out =
      (HuffmanTable.new entries tableLog).plain4Streams src out.length := by
  unfold decompressHuffman4Streams HuffmanTable.plain4Streams
  cases hsrcs : jumpTable src with
  | error f => rfl
  | ok srcs =>
    simp only [bind, Except.bind]
    rw [valid_new h, if_neg (fun hbad => Bool.noConfusion hbad)]
    split
    · next hnone =>
      obtain rfl := List.eq_nil_of_length_eq_zero hnone
      rfl
    · split
      · rfl
      · rcases startStreams_markers (HuffmanTable.new entries tableLog) srcs 0 (shares out.length) (jumpTable_four hsrcs) with
          ⟨f, hmarkers, hstreams⟩ | ⟨_, streams, _, hstreams, _⟩
        · rw [hmarkers, hstreams]
        · obtain ⟨starts, decoded, out', hmarkers, hstarts, hfast, hshares⟩ := rounds_plain h hsrcs hstreams
          rw [hmarkers, hstreams]
          simp only
          have hlog : (HuffmanTable.new entries tableLog).tableLog = tableLog := rfl
          rw [hlog, hfast]
          simp only
          rw [hstarts]
          have hfinish := finishStreams_plain h hshares [] 0 rfl
          rw [List.nil_append] at hfinish
          rw [hfinish]
          cases (HuffmanTable.new entries tableLog).plainStreams 0 starts with
          | error f => rfl
          | ok symbols => rfl

/-- With a valid table, literals are decoded in bulk as they are one symbol at a time. -/
theorem bulk_decodes_plainly (h : HuffmanTable.isValid entries tableLog = true) :
    DecodesPlainly (HuffmanTable.new entries tableLog) where
  one := decompressHuffman1Stream_plain h
  four := decompressHuffman4Streams_plain h
  safe := by
    intro src out
    rw [decompressHuffman1Stream_plain h, decompressHuffman4Streams_plain h]
    exact ⟨fun _ => plain1Stream_safe, fun _ => plain4Streams_safe⟩
  rounds := by
    intro src srcs streams out hsrcs hstreams
    obtain ⟨starts, decoded, out', hmarkers, _, hfast, hshares⟩ := rounds_plain h hsrcs hstreams
    exact ⟨starts, decoded, out', hmarkers, hfast, hshares⟩
  tail := by
    intro s p out hat hpos hstop
    obtain ⟨s', htail, _⟩ := HufStream.tail_plain h out hat hpos hstop
    exact ⟨s', htail⟩

/-- Two symbols, of a bit each. -/
theorem bulk_decodes_plainly_two : DecodesPlainly (HuffmanTable.new [{ symbol := 65, nbBits := 1 }, { symbol := 66, nbBits := 1 }] 1) :=
  bulk_decodes_plainly (by decide)

end Iluvatar
