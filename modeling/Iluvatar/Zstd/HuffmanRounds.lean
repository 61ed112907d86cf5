/-
Rounds of four streams.

While a round runs, every stream has the bits for its symbols in its cache.  Between rounds each
stream has written the first symbols of its share, and nothing else.
-/
import Iluvatar.Zstd.HuffmanPlain

namespace Iluvatar

open Iluvatar.Filter

/-! ## Several symbols -/

namespace HuffmanTable

/-- The reader past the next `k` symbols. -/
def afterAll (t : HuffmanTable) : Nat → PlainReader → PlainReader
  | 0, p => p
  | k + 1, p => t.after (t.afterAll k p)

/-- The next `k` symbols, whether or not their bits remain. -/
def firstSymbols (t : HuffmanTable) : Nat → PlainReader → List Byte
  | 0, _ => []
  | k + 1, p => t.firstSymbols k p ++ [(t.entryAt (t.afterAll k p)).symbol]

variable {t : HuffmanTable} {p : PlainReader}

theorem firstSymbols_length (k : Nat) : (t.firstSymbols k p).length = k := by
  induction k with
  | zero => rfl
  | succ k ih => rw [firstSymbols, List.length_append, ih, List.length_singleton]

theorem afterAll_data (k : Nat) : (t.afterAll k p).data = p.data ∧ (t.afterAll k p).total = p.total := by
  induction k with
  | zero => exact ⟨rfl, rfl⟩
  | succ k ih => exact ih

/-- The next symbols, where their bits remain, are those of the plain decoder. -/
theorem plainSymbols_add (k : Nat) : ∀ {n : Nat}, (t.afterAll k p).taken ≤ p.total →
    t.plainSymbols (k + n) p = t.firstSymbols k p ++ t.plainSymbols n (t.afterAll k p) := by
  induction k with
  | zero =>
    intro n _
    rw [Nat.zero_add]
    rfl
  | succ k ih =>
    intro n hbits
    have hnext : (t.afterAll k p).taken + (t.entryAt (t.afterAll k p)).nbBits.toNat ≤ p.total := hbits
    have hread : ¬ (t.after (t.afterAll k p)).overread = true := by
      rw [after, PlainReader.skip, PlainReader.overread, decide_eq_true_eq, (afterAll_data k).2]
      exact Nat.not_lt.mpr hnext
    rw [show k + 1 + n = k + (n + 1) by omega, ih (by omega), plainSymbols, if_neg hread, firstSymbols, afterAll,
      List.append_assoc]
    rfl

end HuffmanTable

variable {entries : List HufEntry} {tableLog : Nat}

/-- Each symbol takes at most as many bits as the table has. -/
theorem afterAll_taken (h : HuffmanTable.isValid entries tableLog = true) (p : PlainReader) (k : Nat) :
    p.taken ≤ ((HuffmanTable.new entries tableLog).afterAll k p).taken ∧
      ((HuffmanTable.new entries tableLog).afterAll k p).taken ≤ p.taken + k * tableLog := by
  induction k with
  | zero => exact ⟨Nat.le_refl _, Nat.le_add_right _ _⟩
  | succ k ih =>
    have hbits := (entryAt_bits h ((HuffmanTable.new entries tableLog).afterAll k p)).2
    rw [HuffmanTable.afterAll, HuffmanTable.after, PlainReader.skip, Nat.succ_mul]
    simp only
    omega

/-! ## Lanes -/

/-- What a round keeps for a stream after `k` symbols. -/
structure HufLane.At (t : HuffmanTable) (l : HufLane) (p : PlainReader) (k : Nat) : Prop where
  used : l.used + p.taken = (t.afterAll k p).taken
  cache : CacheReads l.cache (t.afterAll k p) (56 - l.used)
  word : l.word.toNat = littleEndian (t.firstSymbols k p)

theorem HufLane.next_at (h : HuffmanTable.isValid entries tableLog = true) {l : HufLane} {p : PlainReader} {k : Nat}
    (hat : l.At (HuffmanTable.new entries tableLog) p k) (hk : k < 8) (hbits : (k + 1) * tableLog ≤ 56) :
    (l.next (HuffmanTable.new entries tableLog).lookup k).At (HuffmanTable.new entries tableLog) p (k + 1) := by
  have hused := hat.used
  have htaken := (afterAll_taken h p k).2
  have hlog := (HuffmanTable.isValid_log h).2
  rw [Nat.succ_mul] at hbits
  have hbound := (entryAt_bits h ((HuffmanTable.new entries tableLog).afterAll k p)).2
  have hlookup := lookup_reads h hat.cache (.inl (by omega))
  have hnb : ((HuffmanTable.new entries tableLog).entryAt ((HuffmanTable.new entries tableLog).afterAll k p)).nbBits.toUInt32.toUInt64 =
      UInt64.ofNat ((HuffmanTable.new entries tableLog).entryAt
        ((HuffmanTable.new entries tableLog).afterAll k p)).nbBits.toNat := by
    refine UInt64.toNat_inj.mp ?_
    rw [UInt32.toNat_toUInt64, UInt8.toNat_toUInt32, UInt64.toNat_ofNat', Nat.mod_eq_of_lt (by omega)]
  unfold HufLane.next
  rw [hlookup]
  simp only
  rw [hnb, UInt8.toNat_toUInt32]
  have hshift := hat.cache.shift (n := 56 - l.used) (k := ((HuffmanTable.new entries tableLog).entryAt
    ((HuffmanTable.new entries tableLog).afterAll k p)).nbBits.toNat) (by omega) (by omega)
  have hsymbol := ((HuffmanTable.new entries tableLog).entryAt ((HuffmanTable.new entries tableLog).afterAll k p)).symbol.toNat_lt
  refine ⟨?_, ?_, ?_⟩
  · show l.used + _ + p.taken = ((HuffmanTable.new entries tableLog).afterAll k p).taken + _
    omega
  · rw [← Nat.sub_sub]
    exact hshift
  · have hfirst : littleEndian ((HuffmanTable.new entries tableLog).firstSymbols k p) < 2 ^ (8 * k) := by
      have hlt := littleEndian_lt ((HuffmanTable.new entries tableLog).firstSymbols k p)
      rwa [HuffmanTable.firstSymbols_length] at hlt
    have hpow : 2 ^ (8 * k) ≤ 2 ^ 56 := Nat.pow_le_pow_right (by decide) (by omega)
    have hplace := shiftLeft64_toNat ((HuffmanTable.new entries tableLog).entryAt
      ((HuffmanTable.new entries tableLog).afterAll k p)).symbol.toUInt64 (n := 8 * k) (by omega) (by
        rw [UInt8.toNat_toUInt64]
        exact Nat.lt_of_lt_of_le (Nat.mul_lt_mul_of_pos_right hsymbol (Nat.two_pow_pos _)) (by omega))
    rw [UInt64.toNat_or, hplace, hat.word, UInt8.toNat_toUInt64, ← Nat.shiftLeft_eq, or_shiftLeft hfirst,
      HuffmanTable.firstSymbols, littleEndian_append, HuffmanTable.firstSymbols_length, Nat.mul_comm]
    rfl

theorem HufLane.load_at (t : HuffmanTable) {s : HufStream} (hrem : 56 ≤ s.rem) :
    ∃ l, HufLane.load s = .ok l ∧ ∀ p, s.At p → l.At t p 0 := by
  refine ⟨{ cache := UInt64.ofNat (extractBits s.src (s.rem - 56) 56) <<< 8, word := 0, used := 0 }, ?_, ?_⟩
  · rw [HufLane.load, checkedSub, if_neg (Nat.not_lt.mpr hrem)]
    rfl
  · intro p hat
    have hremEq := hat.rem
    refine ⟨Nat.zero_add _, ?_, rfl⟩
    show CacheReads _ p 56
    exact extracted_reads (n := 56) hat.data (by decide) (by decide) (by omega)

/-- The lanes of a round, each for its stream. -/
def LanesAt (t : HuffmanTable) (k : Nat) (streams : List HufStream) (lanes : List HufLane) : Prop :=
  List.Forall₂ (fun s l => ∀ p, s.At p → HufLane.At t l p k) streams lanes

theorem load_lanes (t : HuffmanTable) {streams : List HufStream} (hrem : ∀ s ∈ streams, 56 ≤ s.rem) :
    ∃ lanes, streams.mapM HufLane.load = .ok lanes ∧ LanesAt t 0 streams lanes := by
  induction streams with
  | nil => exact ⟨[], rfl, .nil⟩
  | cons s streams ih =>
    obtain ⟨l, hload, hl⟩ := HufLane.load_at t (hrem s (List.mem_cons_self ..))
    obtain ⟨lanes, hlanes, hat⟩ := ih fun s' hs' => hrem s' (List.mem_cons_of_mem s hs')
    refine ⟨l :: lanes, ?_, .cons hl hat⟩
    rw [List.mapM_cons, hload, hlanes]
    rfl

theorem symbols_lanes (h : HuffmanTable.isValid entries tableLog = true) {streams : List HufStream} {lanes : List HufLane}
    (hat : LanesAt (HuffmanTable.new entries tableLog) 0 streams lanes) (k : Nat) (hk : k ≤ 8) (hbits : k * tableLog ≤ 56) :
    LanesAt (HuffmanTable.new entries tableLog) k streams
      (HufLane.symbols (HuffmanTable.new entries tableLog).lookup k lanes) := by
  induction k with
  | zero => exact hat
  | succ k ih =>
    have hless : k * tableLog ≤ (k + 1) * tableLog := Nat.mul_le_mul_right _ (Nat.le_succ k)
    rw [HufLane.symbols]
    refine List.forall₂_map_right_iff.mpr ((ih (by omega) (by omega)).imp fun s l hl p hp => ?_)
    exact HufLane.next_at h (hl p hp) (by omega) hbits

/-! ## Shares of the output -/

theorem storeLe_length (k : Nat) (x : UInt64) : (storeLe k x).length = k := by
  induction k generalizing x with
  | zero => rfl
  | succ k ih => rw [storeLe, List.length_cons, ih]

/-- The bytes of the packed symbols. -/
theorem HufLane.At.bytes {t : HuffmanTable} {l : HufLane} {p : PlainReader} {k : Nat} (hat : l.At t p k) :
    storeLe k l.word = t.firstSymbols k p := by
  have hlt := littleEndian_lt (t.firstSymbols k p)
  rw [HuffmanTable.firstSymbols_length] at hlt
  refine littleEndian_inj ?_ ?_
  · rw [storeLe_length, HuffmanTable.firstSymbols_length]
  · rw [storeLe_value, hat.word, Nat.mod_eq_of_lt hlt]

theorem written_take {out : List Byte} {pos : Nat} (h : pos ≤ out.length) (symbols : List Byte) :
    (written out pos symbols).take (pos + symbols.length) = out.take pos ++ symbols := by
  have hlength : (out.take pos ++ symbols).length = pos + symbols.length := by
    rw [List.length_append, List.length_take_of_le h]
  rw [written, ← hlength, List.take_left]

theorem written_drop {out : List Byte} {pos : Nat} (h : pos ≤ out.length) (symbols : List Byte) :
    (written out pos symbols).drop (pos + symbols.length) = out.drop (pos + symbols.length) := by
  have hlength : (out.take pos ++ symbols).length = pos + symbols.length := by
    rw [List.length_append, List.length_take_of_le h]
  rw [written]
  conv => lhs; arg 1; rw [← hlength]
  rw [List.drop_left]

theorem written_length {out : List Byte} {pos : Nat} {symbols : List Byte} (h : pos + symbols.length ≤ out.length) :
    (written out pos symbols).length = out.length := by
  rw [written, List.length_append, List.length_append, List.length_take_of_le (by omega), List.length_drop]
  omega

/-- Symbols written in a part of the output. -/
theorem written_within {before share after symbols : List Byte} {pos : Nat} (hlow : before.length ≤ pos)
    (hhigh : pos + symbols.length ≤ before.length + share.length) :
    written (before ++ (share ++ after)) pos symbols = before ++ (written share (pos - before.length) symbols ++ after) := by
  obtain ⟨m, rfl⟩ : ∃ m, pos = before.length + m := ⟨pos - before.length, by omega⟩
  rw [Nat.add_sub_cancel_left, written, written, List.take_length_add_append, Nat.add_assoc, List.drop_length_add_append,
    List.take_append_of_le_length (by omega), List.drop_append_of_le_length (by omega)]
  simp only [List.append_assoc]

/-- The share of a stream, from `base` on: its first symbols are written, and the rest is as it was. -/
structure Share (t : HuffmanTable) (base : Nat) (s : HufStream) (start : PlainReader) (orig out : List Byte) : Prop where
  length : out.length = orig.length
  from_base : base ≤ s.pos
  to_stop : s.pos ≤ s.stop
  stop : s.stop = base + orig.length
  rest : out.drop (s.pos - base) = orig.drop (s.pos - base)
  reader : ∃ p, s.At p ∧
    out.take (s.pos - base) ++ t.plainSymbols (s.stop - s.pos) p = t.plainSymbols orig.length start

/-- The output is made up of shares. -/
inductive Shares (t : HuffmanTable) : Nat → List HufStream → List (PlainReader × Nat) → List Byte → List Byte → Prop
  | nil {base : Nat} : Shares t base [] [] [] []
  | cons {base : Nat} {s : HufStream} {streams : List HufStream} {start : PlainReader} {starts : List (PlainReader × Nat)}
      {orig origs out outs : List Byte} : Share t base s start orig out →
      Shares t (base + orig.length) streams starts origs outs →
      Shares t base (s :: streams) ((start, orig.length) :: starts) (orig ++ origs) (out ++ outs)

/-- A stream moved on by `m` symbols. -/
structure MovedOn (tableLog m : Nat) (s s' : HufStream) : Prop where
  pos : s'.pos = s.pos + m
  stop : s'.stop = s.stop
  rem : s.rem ≤ s'.rem + m * tableLog

/-- A stream with the bits and the room for a round. -/
def Ready (k : Nat) (s : HufStream) : Prop := 56 ≤ s.rem ∧ s.pos + k ≤ s.stop

theorem HufLane.store_share (h : HuffmanTable.isValid entries tableLog = true) {base k : Nat} {s : HufStream} {l : HufLane}
    {start : PlainReader} {before orig out : List Byte} (after : List Byte) (hbase : before.length = base)
    (hshare : Share (HuffmanTable.new entries tableLog) base s start orig out) (hready : Ready k s)
    (hbits : k * tableLog ≤ 56) (hlane : ∀ p, s.At p → l.At (HuffmanTable.new entries tableLog) p k) :
    ∃ s' out', HufLane.store k s l (before ++ (out ++ after)) = .ok (s', before ++ (out' ++ after)) ∧
      Share (HuffmanTable.new entries tableLog) base s' start orig out' ∧ MovedOn tableLog k s s' := by
  obtain ⟨hrem, hroom⟩ := hready
  obtain ⟨hlength, hlow, _, hstop, hrest, p, hat, hplain⟩ := hshare
  have hl := hlane p hat
  have hused := hl.used
  have htaken := afterAll_taken h p k
  have hremEq := hat.rem
  have hwithin := hat.within
  have hsymbols : ((HuffmanTable.new entries tableLog).firstSymbols k p).length = k := HuffmanTable.firstSymbols_length k
  have hstore : HufLane.store k s l (before ++ (out ++ after)) = .ok ({ s with pos := s.pos + k, rem := s.rem - l.used },
      before ++ (written out (s.pos - base) ((HuffmanTable.new entries tableLog).firstSymbols k p) ++ after)) := by
    have hfits : ¬ (before ++ (out ++ after)).length < s.pos + k := by
      rw [List.length_append, List.length_append]
      omega
    have henough : ¬ s.rem < l.used := by omega
    rw [HufLane.store, if_neg hfits, checkedSub, if_neg henough, hl.bytes, ← hbase,
      ← written_within (by omega) (by rw [hsymbols]; omega), written, hsymbols]
    rfl
  have hpast : s.pos + k - base = s.pos - base + ((HuffmanTable.new entries tableLog).firstSymbols k p).length := by
    rw [hsymbols]
    omega
  have hinside : s.pos - base ≤ out.length := by omega
  refine ⟨_, _, hstore, ⟨?_, ?_, hroom, hstop, ?_, (HuffmanTable.new entries tableLog).afterAll k p, ⟨?_, ?_, ?_⟩, ?_⟩,
    rfl, rfl, ?_⟩
  · rw [written_length (by rw [hsymbols]; omega)]
    exact hlength
  · exact Nat.le_trans hlow (Nat.le_add_right _ _)
  · show (written _ _ _).drop (s.pos + k - base) = orig.drop (s.pos + k - base)
    have hboth := congrArg (List.drop ((HuffmanTable.new entries tableLog).firstSymbols k p).length) hrest
    rw [List.drop_drop, List.drop_drop] at hboth
    rw [hpast, written_drop hinside, hboth]
  · rw [(HuffmanTable.afterAll_data k).1]
    exact hat.data
  · rw [(HuffmanTable.afterAll_data k).2]
    omega
  · rw [(HuffmanTable.afterAll_data k).2]
    show s.rem - l.used = _
    omega
  · have hsplit : s.stop - s.pos = k + (s.stop - (s.pos + k)) := by omega
    rw [hsplit, HuffmanTable.plainSymbols_add k (by omega), ← List.append_assoc] at hplain
    show (written _ _ _).take (s.pos + k - base) ++ _ = _
    rw [hpast, written_take hinside]
    exact hplain
  · show s.rem ≤ s.rem - l.used + k * tableLog
    omega

theorem HufLane.storeAll_shares (h : HuffmanTable.isValid entries tableLog = true) {k base : Nat}
    {streams : List HufStream} {starts : List (PlainReader × Nat)} {origs outs : List Byte}
    (hshares : Shares (HuffmanTable.new entries tableLog) base streams starts origs outs) (hbits : k * tableLog ≤ 56) :
    ∀ (before : List Byte) {lanes : List HufLane}, before.length = base → (∀ s ∈ streams, Ready k s) →
      LanesAt (HuffmanTable.new entries tableLog) k streams lanes →
      ∃ streams' outs', HufLane.storeAll k streams lanes (before ++ outs) = .ok (streams', before ++ outs') ∧
        Shares (HuffmanTable.new entries tableLog) base streams' starts origs outs' ∧
        List.Forall₂ (MovedOn tableLog k) streams streams' := by
  induction hshares with
  | nil =>
    intro before lanes _ _ hlanes
    cases hlanes
    exact ⟨[], [], rfl, .nil, .nil⟩
  | @cons base s streams start starts orig origs out outs hshare _ ih =>
    intro before lanes hbefore hready hlanes
    cases hlanes with
    | @cons _ l _ lanes hlane hlanes =>
      obtain ⟨s', out', hstore, hshare', hmoved⟩ := HufLane.store_share h outs hbefore hshare
        (hready s (List.mem_cons_self ..)) hbits hlane
      have hnext : (before ++ out').length = base + orig.length := by
        rw [List.length_append, hbefore, hshare'.length]
      obtain ⟨streams', outs', hrest, hshares', hmoves⟩ :=
        ih (before ++ out') hnext (fun s₁ hs₁ => hready s₁ (List.mem_cons_of_mem s hs₁)) hlanes
      refine ⟨s' :: streams', out' ++ outs', ?_, .cons hshare' hshares', .cons hmoved hmoves⟩
      rw [HufLane.storeAll, hstore]
      show (HufLane.storeAll k streams lanes (before ++ (out' ++ outs)) >>= _) = _
      rw [← List.append_assoc, hrest, ← List.append_assoc]
      rfl

namespace HufStream

variable {streams : List HufStream} {starts : List (PlainReader × Nat)} {orig out : List Byte} {k : Nat}

theorem round_shares (h : HuffmanTable.isValid entries tableLog = true)
    (hshares : Shares (HuffmanTable.new entries tableLog) 0 streams starts orig out) (hk : k ≤ 8)
    (hbits : k * tableLog ≤ 56) (hready : ∀ s ∈ streams, Ready k s) :
    ∃ streams' out', round (HuffmanTable.new entries tableLog).lookup k streams out = .ok (streams', out') ∧
      Shares (HuffmanTable.new entries tableLog) 0 streams' starts orig out' ∧
      List.Forall₂ (MovedOn tableLog k) streams streams' := by
  obtain ⟨lanes, hload, hlanes⟩ := load_lanes (HuffmanTable.new entries tableLog) fun s hs => (hready s hs).1
  obtain ⟨streams', out', hstore, hshares', hmoves⟩ :=
    HufLane.storeAll_shares h hshares hbits [] rfl hready (symbols_lanes h hlanes k hk hbits)
  refine ⟨streams', out', ?_, hshares', hmoves⟩
  rw [round, hload]
  exact hstore

theorem moved_from {tableLog : Nat} {streams' : List HufStream}
    (h : List.Forall₂ (MovedOn tableLog k) streams streams') : ∀ s' ∈ streams', ∃ s ∈ streams, MovedOn tableLog k s s' := by
  induction h with
  | nil =>
    intro s' hs'
    cases hs'
  | cons hmoved _ ih =>
    intro s' hs'
    rcases List.mem_cons.mp hs' with rfl | hs'
    · exact ⟨_, List.mem_cons_self .., hmoved⟩
    · obtain ⟨s, hs, hmoved'⟩ := ih s' hs'
      exact ⟨s, List.mem_cons_of_mem _ hs, hmoved'⟩

theorem moved_to {tableLog : Nat} {streams' : List HufStream}
    (h : List.Forall₂ (MovedOn tableLog k) streams streams') : ∀ s ∈ streams, ∃ s' ∈ streams', MovedOn tableLog k s s' := by
  induction h with
  | nil =>
    intro s hs
    cases hs
  | cons hmoved _ ih =>
    intro s hs
    rcases List.mem_cons.mp hs with rfl | hs
    · exact ⟨_, List.mem_cons_self .., hmoved⟩
    · obtain ⟨s', hs', hmoved'⟩ := ih s hs
      exact ⟨s', List.mem_cons_of_mem _ hs', hmoved'⟩

/-- Streams with the bits and the room for `n` rounds. -/
def ReadyFor (k maxBits n : Nat) (s : HufStream) : Prop :=
  n ≠ 0 → (n - 1) * maxBits + 56 ≤ s.rem ∧ s.pos + n * k ≤ s.stop

theorem rounds_shares (h : HuffmanTable.isValid entries tableLog = true) (hk : k ≤ 8) (hbits : k * tableLog ≤ 56) (n : Nat) :
    ∀ {streams : List HufStream} {out : List Byte},
      Shares (HuffmanTable.new entries tableLog) 0 streams starts orig out →
      (∀ s ∈ streams, ReadyFor k (k * tableLog) n s) →
      ∃ streams' out', rounds (HuffmanTable.new entries tableLog).lookup k n streams out = .ok (streams', out') ∧
        Shares (HuffmanTable.new entries tableLog) 0 streams' starts orig out' ∧
        ∀ s ∈ streams, ∃ s' ∈ streams', s'.pos = s.pos + n * k ∧ s'.stop = s.stop := by
  induction n with
  | zero =>
    intro streams out hshares _
    refine ⟨streams, out, rfl, hshares, fun s hs => ⟨s, hs, ?_, rfl⟩⟩
    rw [Nat.zero_mul, Nat.add_zero]
  | succ n ih =>
    intro streams out hshares hready
    have hone : ∀ s ∈ streams, Ready k s := by
      intro s hs
      obtain ⟨hrem, hroom⟩ := hready s hs (Nat.succ_ne_zero n)
      rw [Nat.succ_mul] at hroom
      exact ⟨by omega, by omega⟩
    obtain ⟨streams₁, out₁, hround, hshares₁, hmoves⟩ := round_shares h hshares hk hbits hone
    have hready₁ : ∀ s ∈ streams₁, ReadyFor k (k * tableLog) n s := by
      intro s₁ hs₁ hn
      obtain ⟨s, hs, hmoved⟩ := moved_from hmoves s₁ hs₁
      obtain ⟨hrem, hroom⟩ := hready s hs (Nat.succ_ne_zero n)
      obtain ⟨m, rfl⟩ : ∃ m, n = m + 1 := Nat.exists_eq_succ_of_ne_zero hn
      have hpos := hmoved.pos
      have hstop := hmoved.stop
      have hleft := hmoved.rem
      rw [Nat.add_sub_cancel, Nat.succ_mul] at hrem
      rw [Nat.succ_mul] at hroom
      rw [Nat.add_sub_cancel]
      exact ⟨by omega, by omega⟩
    obtain ⟨streams', out', hrounds, hshares', hmoves'⟩ := ih hshares₁ hready₁
    refine ⟨streams', out', ?_, hshares', fun s hs => ?_⟩
    · rw [rounds, hround]
      exact hrounds
    · obtain ⟨s₁, hs₁, hmoved⟩ := moved_to hmoves s hs
      obtain ⟨s', hs', hpos, hstop⟩ := hmoves' s₁ hs₁
      refine ⟨s', hs', ?_, hstop.trans hmoved.stop⟩
      rw [hpos, hmoved.pos, Nat.succ_mul]
      omega

theorem shares_order {t : HuffmanTable} {base : Nat} (h : Shares t base streams starts orig out) :
    ∀ s ∈ streams, s.pos ≤ s.stop := by
  induction h with
  | nil =>
    intro s hs
    cases hs
  | cons hshare _ ih =>
    intro s hs
    rcases List.mem_cons.mp hs with rfl | hs
    · exact hshare.to_stop
    · exact ih s hs

/-- No stream is out of bits or of room before the rounds are over. -/
theorem roundsLeft_ready (k maxBits : Nat) (streams : List HufStream) :
    ∀ {n : Nat}, (∀ s ∈ streams, s.pos ≤ s.stop) →
      ∃ m, roundsLeft k maxBits streams n = .ok m ∧ m ≤ n ∧ ∀ s ∈ streams, ReadyFor k maxBits m s := by
  induction streams with
  | nil =>
    intro n _
    exact ⟨n, rfl, Nat.le_refl n, fun s hs => absurd hs (by simp)⟩
  | cons s streams ih =>
    intro n horder
    have hpos := horder s (List.mem_cons_self ..)
    obtain ⟨m, hleft, hm, hready⟩ := ih
      (n := min (min n (if 56 ≤ s.rem then (s.rem - 56) / maxBits + 1 else 0)) ((s.stop - s.pos) / k))
      fun s' hs' => horder s' (List.mem_cons_of_mem s hs')
    refine ⟨m, ?_, by omega, fun s' hs' => ?_⟩
    · rw [roundsLeft, checkedSub, if_neg (Nat.not_lt.mpr hpos)]
      exact hleft
    rcases List.mem_cons.mp hs' with rfl | hs'
    · intro hne
      have hroom : m ≤ (s'.stop - s'.pos) / k := by omega
      have hroom := Nat.mul_le_of_le_div k _ _ hroom
      by_cases henough : 56 ≤ s'.rem
      · rw [if_pos henough] at hm
        have hrounds : m - 1 ≤ (s'.rem - 56) / maxBits := by omega
        have hrounds := Nat.mul_le_of_le_div maxBits _ _ hrounds
        exact ⟨by omega, by omega⟩
      · rw [if_neg henough] at hm
        omega
    · exact hready s' hs'

/-- The fast loop ends, with only the first symbols of each share written. -/
theorem fastLoop_shares (h : HuffmanTable.isValid entries tableLog = true) (hpos : 0 < k) (hk : k ≤ 8)
    (hbits : k * tableLog ≤ 56) (fuel : Nat) : ∀ {streams : List HufStream} {out : List Byte},
      Shares (HuffmanTable.new entries tableLog) 0 streams starts orig out →
      (∃ s ∈ streams, s.stop - s.pos < fuel) →
      ∃ streams' out', fastLoop (HuffmanTable.new entries tableLog).lookup k (k * tableLog) fuel streams out =
          .ok (streams', out') ∧
        Shares (HuffmanTable.new entries tableLog) 0 streams' starts orig out' := by
  induction fuel with
  | zero =>
    rintro streams out _ ⟨s, _, hs⟩
    exact absurd hs (Nat.not_lt_zero _)
  | succ fuel ih =>
    rintro streams out hshares ⟨s, hs, hroom⟩
    obtain ⟨n, hleft, _, hready⟩ :=
      roundsLeft_ready k (k * tableLog) streams (n := 2 ^ 64 - 1) (shares_order hshares)
    rw [fastLoop, hleft]
    simp only [bind, Except.bind]
    by_cases hzero : n = 0
    · rw [if_pos hzero]
      exact ⟨streams, out, rfl, hshares⟩
    · rw [if_neg hzero]
      obtain ⟨streams₁, out₁, hrounds, hshares₁, hmoves⟩ := rounds_shares h hk hbits n hshares hready
      obtain ⟨s₁, hs₁, hposEq, hstopEq⟩ := hmoves s hs
      have hfits := (hready s hs hzero).2
      have hmany : 0 < n * k := Nat.mul_pos (Nat.pos_of_ne_zero hzero) hpos
      rw [hrounds]
      exact ih hshares₁ ⟨s₁, hs₁, by omega⟩

end HufStream

end Iluvatar
