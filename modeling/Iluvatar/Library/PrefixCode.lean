/-
Canonical prefix codes as flat tables.

Symbols have weights; one of weight `w` takes `2 ^ (w - 1)` slots of the table, and one of weight
0 none.  The slots are given out by weight, and among symbols of one weight by symbol.  Where the
slots of all symbols add up to a power of two, each block begins at a multiple of its size, which
makes it a code: the slots that share its leading bits.
-/
import Iluvatar.Library.FiniteState

namespace PrefixCode

def slots (w : Nat) : Nat := if w = 0 then 0 else 2 ^ (w - 1)

/-- The weight of a symbol; those beyond the list have none. -/
def weight (ws : List Nat) (s : Nat) : Nat := ws.getD s 0

/-- Where the symbols of weight `w` begin. -/
def base (ws : List Nat) : Nat → Nat
  | 0 => 0
  | w + 1 => base ws w + ws.count w * slots w

/-- Where the block of a symbol begins. -/
def start (ws : List Nat) (s : Nat) : Nat :=
  base ws (weight ws s) + (ws.take s).count (weight ws s) * slots (weight ws s)

/-- Slot `i` is one of symbol `s`. -/
def Holds (ws : List Nat) (s i : Nat) : Prop := start ws s ≤ i ∧ i < start ws s + slots (weight ws s)

/-- `s` comes before `s'`: it is of less weight, or the same and a smaller symbol. -/
def Before (ws : List Nat) (s s' : Nat) : Prop :=
  weight ws s < weight ws s' ∨ (weight ws s = weight ws s' ∧ s < s')

variable {ws : List Nat}

theorem slots_pos {w : Nat} (h : w ≠ 0) : 0 < slots w := by
  rw [slots, if_neg h]
  exact Nat.two_pow_pos _

theorem weight_of_lt {s : Nat} (h : s < ws.length) : ws[s]? = some (weight ws s) := by
  rw [weight, List.getD_eq_getElem?_getD, List.getElem?_eq_getElem h]
  rfl

theorem lt_of_weight {s : Nat} (h : weight ws s ≠ 0) : s < ws.length := by
  by_contra hover
  refine h ?_
  rw [weight, List.getD_eq_getElem?_getD, List.getElem?_eq_none (Nat.not_lt.mp hover)]
  rfl

theorem weight_mem {s : Nat} (h : weight ws s ≠ 0) : weight ws s ∈ ws :=
  List.mem_of_getElem? (weight_of_lt (lt_of_weight h))

theorem Holds.weight_ne {s i : Nat} (h : Holds ws s i) : weight ws s ≠ 0 := by
  intro hzero
  have hnone : slots (weight ws s) = 0 := if_pos hzero
  have := h.1
  have := h.2
  omega

theorem base_mono {w w' : Nat} (h : w ≤ w') : base ws w ≤ base ws w' := by
  induction h with
  | refl => exact Nat.le_refl _
  | step _ ih => exact Nat.le_trans ih (Nat.le_add_right _ _)

/-- The symbols before `s` of its own weight. -/
theorem count_take_lt {s s' : Nat} (hs : s < ws.length) (h : s < s') :
    (ws.take s).count (weight ws s) + 1 ≤ (ws.take s').count (weight ws s) := by
  have hsucc : ws.take (s + 1) = ws.take s ++ [weight ws s] := by
    rw [List.take_add_one, weight_of_lt hs]
    rfl
  have hprefix : ws.take (s + 1) <+: ws.take s' := List.take_prefix_take_left h
  have hle := hprefix.sublist.count_le (weight ws s)
  rw [hsucc, List.count_append, List.count_singleton_self] at hle
  exact hle

theorem end_le_base {s : Nat} (hs : s < ws.length) :
    start ws s + slots (weight ws s) ≤ base ws (weight ws s + 1) := by
  have hcount := count_take_lt hs hs
  rw [List.take_length] at hcount
  have hmul := Nat.mul_le_mul_right (slots (weight ws s)) hcount
  rw [Nat.add_mul, Nat.one_mul] at hmul
  rw [start, base]
  omega

/-- Blocks are in order and apart. -/
theorem Before.apart {s s' : Nat} (h : Before ws s s') (hs : s < ws.length) :
    start ws s + slots (weight ws s) ≤ start ws s' := by
  rcases h with hless | ⟨hsame, hlt⟩
  · calc start ws s + slots (weight ws s) ≤ base ws (weight ws s + 1) := end_le_base hs
      _ ≤ base ws (weight ws s') := base_mono hless
      _ ≤ start ws s' := Nat.le_add_right _ _
  · have hcount := Nat.mul_le_mul_right (slots (weight ws s)) (count_take_lt hs hlt)
    rw [Nat.add_mul, Nat.one_mul] at hcount
    rw [start, start, ← hsame]
    omega

theorem before_total (s s' : Nat) : Before ws s s' ∨ s = s' ∨ Before ws s' s := by
  unfold Before
  omega

/-- A slot is of one symbol at most. -/
theorem Holds.unique {s s' i : Nat} (h : Holds ws s i) (h' : Holds ws s' i) : s = s' := by
  obtain ⟨hlow, hhigh⟩ := h
  obtain ⟨hlow', hhigh'⟩ := h'
  rcases before_total s s' with hbefore | hsame | hbefore
  · have := hbefore.apart (lt_of_weight (Holds.weight_ne ⟨hlow, hhigh⟩))
    omega
  · exact hsame
  · have := hbefore.apart (lt_of_weight (Holds.weight_ne ⟨hlow', hhigh'⟩))
    omega

/-- Every slot below the next weight's base is of a symbol. -/
theorem exists_holds (n : Nat) {i : Nat} (hi : i < base ws n) : ∃ s, Holds ws s i := by
  induction n with
  | zero => exact absurd hi (Nat.not_lt_zero i)
  | succ n ih =>
    rcases Nat.lt_or_ge i (base ws n) with hbelow | habove
    · exact ih hbelow
    · rw [base] at hi
      have hpos : 0 < slots n := by
        rcases Nat.eq_zero_or_pos (slots n) with hzero | hpos
        · rw [hzero, Nat.mul_zero] at hi
          omega
        · exact hpos
      have hrank : (i - base ws n) / slots n < ws.count n := by
        rw [Nat.div_lt_iff_lt_mul hpos]
        omega
      obtain ⟨s, ⟨⟨w, hat, hw⟩, hcount⟩, _⟩ := FiniteState.existsUnique_rank (· == n) ws hrank
      have hweight : weight ws s = n := by
        rw [weight, List.getD_eq_getElem?_getD, hat]
        exact eq_of_beq hw
      have hdiv := Nat.div_add_mod (i - base ws n) (slots n)
      have hmod := Nat.mod_lt (i - base ws n) hpos
      have hstart : start ws s = base ws n + (i - base ws n) / slots n * slots n := by
        rw [start, hweight]
        exact congrArg (base ws n + · * slots n) hcount
      rw [Nat.mul_comm] at hdiv
      refine ⟨s, ?_, ?_⟩
      · omega
      · rw [hweight]
        omega

theorem base_cons (w : Nat) (n : Nat) : base (w :: ws) n = base ws n + if w < n then slots w else 0 := by
  induction n with
  | zero => rfl
  | succ n ih =>
    rw [base, base, ih]
    rcases Nat.lt_trichotomy w n with hless | hsame | hmore
    · rw [List.count_cons_of_ne (by omega), if_pos hless, if_pos (by omega)]
      omega
    · rw [hsame, List.count_cons_self, if_neg (Nat.lt_irrefl n), if_pos (Nat.lt_succ_self n), Nat.add_mul]
      omega
    · rw [List.count_cons_of_ne (by omega), if_neg (by omega), if_neg (by omega)]
      omega

/-- The blocks take as many slots as the symbols do. -/
theorem base_total {n : Nat} (h : ∀ w ∈ ws, w < n) : base ws n = (ws.map slots).sum := by
  induction ws with
  | nil =>
    show base [] n = 0
    induction n with
    | zero => rfl
    | succ n ih =>
      rw [base, ih fun _ h => absurd h List.not_mem_nil, List.count_nil, Nat.zero_mul]
  | cons w ws ih =>
    rw [base_cons, if_pos (h w List.mem_cons_self), ih fun v hv => h v (List.mem_cons_of_mem w hv), List.map_cons,
      List.sum_cons, Nat.add_comm]

/-- Past the base of weight `w` come multiples of its block. -/
theorem base_above {w : Nat} (hw : w ≠ 0) (k : Nat) : ∃ m, base ws (w + k) = base ws w + m * 2 ^ (w - 1) := by
  induction k with
  | zero => exact ⟨0, by rw [Nat.zero_mul]; rfl⟩
  | succ k ih =>
    obtain ⟨m, hm⟩ := ih
    refine ⟨m + ws.count (w + k) * 2 ^ k, ?_⟩
    have hslots : slots (w + k) = 2 ^ k * 2 ^ (w - 1) := by
      rw [slots, if_neg (by omega), ← Nat.pow_add]
      exact congrArg (2 ^ ·) (by omega)
    rw [← Nat.add_assoc, base, hm, hslots, Nat.add_mul, ← Nat.mul_assoc]
    omega

/-- In a full table a block begins at a multiple of its size. -/
theorem block_aligned {L s : Nat} (htotal : base ws (L + 1) = 2 ^ L) (hs : weight ws s ≠ 0) (hle : weight ws s ≤ L) :
    ∃ code, start ws s = code * 2 ^ (weight ws s - 1) := by
  have habove : ∃ m, base ws (weight ws s + (L + 1 - weight ws s)) = base ws (weight ws s) + m * 2 ^ (weight ws s - 1) :=
    base_above hs _
  obtain ⟨m, hm⟩ := habove
  rw [Nat.add_sub_cancel' (by omega), htotal] at hm
  have hpow : 2 ^ L = 2 ^ (L + 1 - weight ws s) * 2 ^ (weight ws s - 1) := by
    rw [← Nat.pow_add]
    exact congrArg (2 ^ ·) (by omega)
  have hbase : base ws (weight ws s) = (2 ^ (L + 1 - weight ws s) - m) * 2 ^ (weight ws s - 1) := by
    rw [Nat.sub_mul, ← hpow]
    omega
  refine ⟨2 ^ (L + 1 - weight ws s) - m + (ws.take s).count (weight ws s), ?_⟩
  rw [start, hbase, slots, if_neg hs, Nat.add_mul]

/-- The slots of a block are those that share its leading bits. -/
theorem holds_iff {L s : Nat} (htotal : base ws (L + 1) = 2 ^ L) (hs : weight ws s ≠ 0) (hle : weight ws s ≤ L) :
    ∃ code, ∀ i, Holds ws s i ↔ i / 2 ^ (weight ws s - 1) = code := by
  obtain ⟨code, hcode⟩ := block_aligned htotal hs hle
  refine ⟨code, fun i => ?_⟩
  rw [Holds, hcode, slots, if_neg hs, Nat.div_eq_iff (Nat.two_pow_pos _)]
  have hpos := Nat.two_pow_pos (weight ws s - 1)
  omega

end PrefixCode
