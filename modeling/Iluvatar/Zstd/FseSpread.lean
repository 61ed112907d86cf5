/-
How `spreadTable` fills a table.

The symbols of low probability take the slots at the top, and the others are spread over
the slots below by a walk in steps that are coprime to the table's size.  The walk comes
by every slot below once and ends where it began.
-/
import Iluvatar.Zstd.FseCounts
import Iluvatar.Library.FiniteState
import Mathlib.Data.Nat.Prime.Basic

namespace Iluvatar

open FiniteState

/-- How many symbols have a slot at the top. -/
def lowCount (counts : List Int) : Nat := counts.count (-1)

/-- Each slot of a table of `size` is filled once: the first writes go to the top, as many as
there are symbols of low probability, and no later one does. -/
structure Spread.Complete (t : Spread) (counts : List Int) (size : Nat) : Prop where
  length : t.entries.length = size
  once : (t.filled.map Prod.fst).Perm (List.range size)
  holds : ∀ pair ∈ t.filled, ∃ e, t.entries[pair.1]? = some e ∧ e.symbol = UInt8.ofNat pair.2
  reserved : ∀ i pair, t.filled[i]? = some pair → (i < lowCount counts ↔ size - lowCount counts ≤ pair.1)

/-! ## Which symbols are written -/

/-- The symbols of low probability, from symbol `s` on. -/
def lowSymbols : List Int → Nat → List Nat
  | [], _ => []
  | count :: counts, s =>
    if count = -1 then s :: lowSymbols counts (s + 1) else lowSymbols counts (s + 1)

/-- The symbols of the walk, each as often as it counts. -/
def walkSymbols : List Int → Nat → List Nat
  | [], _ => []
  | count :: counts, s => List.replicate count.toNat s ++ walkSymbols counts (s + 1)

/-- The first number of a symbol. -/
def firstNumber (count : Int) : Nat := if count = -1 then 1 else count.toNat

theorem lowSymbols_length (counts : List Int) (s : Nat) :
    (lowSymbols counts s).length = lowCount counts := by
  induction counts generalizing s with
  | nil => rfl
  | cons count counts ih =>
    rw [lowSymbols, lowCount, List.count_cons]
    by_cases hlow : count = -1
    · rw [if_pos hlow, List.length_cons, ih]
      simp [hlow, lowCount]
    · rw [if_neg hlow, ih]
      simp [hlow, lowCount]

/-- As many symbols are written as the distribution has slots. -/
theorem symbols_length {counts : List Int} (h : ∀ count ∈ counts, -1 ≤ count) (s : Nat) :
    (lowSymbols counts s).length + (walkSymbols counts s).length = slotTotal counts := by
  induction counts generalizing s with
  | nil => rfl
  | cons count counts ih =>
    have htail := ih (fun c hc => h c (List.mem_cons_of_mem _ hc)) (s + 1)
    have hhead := h count (List.mem_cons_self ..)
    simp only [slotTotal] at htail
    simp only [slotTotal, List.map_cons, List.sum_cons, ← htail, walkSymbols, List.length_append,
      List.length_replicate, lowSymbols, slotCount]
    by_cases hlow : count = -1
    · rw [if_pos hlow, List.length_cons]
      omega
    · rw [if_neg hlow]
      omega

theorem lowSymbols_ge {counts : List Int} {s y : Nat} (h : y ∈ lowSymbols counts s) : s ≤ y := by
  induction counts generalizing s with
  | nil => exact absurd h List.not_mem_nil
  | cons count counts ih =>
    rw [lowSymbols] at h
    split at h
    · rcases List.mem_cons.mp h with rfl | h
      · exact Nat.le_refl _
      · have := ih h
        omega
    · have := ih h
      omega

theorem walkSymbols_ge {counts : List Int} {s y : Nat} (h : y ∈ walkSymbols counts s) : s ≤ y := by
  induction counts generalizing s with
  | nil => exact absurd h List.not_mem_nil
  | cons count counts ih =>
    rw [walkSymbols] at h
    rcases List.mem_append.mp h with h | h
    · rw [List.eq_of_mem_replicate h]
    · have := ih h
      omega

/-- Each symbol is written as often as its first number says. -/
theorem symbols_count {counts : List Int} {s i : Nat} {count : Int} (h : counts[i]? = some count) :
    (lowSymbols counts s).count (s + i) + (walkSymbols counts s).count (s + i) = firstNumber count := by
  induction counts generalizing s i with
  | nil => exact absurd h (by simp)
  | cons c counts ih =>
    cases i with
    | zero =>
      obtain rfl := Option.some.inj h
      have hlow : (lowSymbols counts (s + 1)).count s = 0 :=
        List.count_eq_zero.mpr fun hmem => by
          have := lowSymbols_ge hmem
          omega
      have hwalk : (walkSymbols counts (s + 1)).count s = 0 :=
        List.count_eq_zero.mpr fun hmem => by
          have := walkSymbols_ge hmem
          omega
      rw [Nat.add_zero, lowSymbols, walkSymbols, List.count_append, hwalk, List.count_replicate_self,
        firstNumber]
      split
      · rename_i hone
        rw [List.count_cons_self, hlow, hone]
        rfl
      · rw [hlow]
        omega
    | succ i =>
      have htail := ih (s := s + 1) h
      have hother : s ≠ s + (i + 1) := by omega
      have hplace : s + 1 + i = s + (i + 1) := by omega
      rw [hplace] at htail
      have hbeq : (s == s + (i + 1)) = false := by simp
      rw [lowSymbols, walkSymbols, List.count_append, List.count_replicate, hbeq, ← htail]
      simp only [Bool.false_eq_true, if_false, Nat.zero_add]
      congr 1
      split
      · rw [List.count_cons_of_ne hother]
      · rfl

/-! ## Writing a slot -/

/-- What is written is there, and no slot was written twice. -/
structure Spread.Placed (n : Nat) (t : Spread) : Prop where
  length : t.entries.length = n
  holds : ∀ pair ∈ t.filled, ∃ e, t.entries[pair.1]? = some e ∧ e.symbol = UInt8.ofNat pair.2
  distinct : (t.filled.map Prod.fst).Nodup

variable {n : Nat} {t : Spread}

theorem Spread.Placed.put (h : t.Placed n) {slot : Nat} (hslot : slot < n)
    (hnew : slot ∉ t.filled.map Prod.fst) (s : Nat) :
    ∃ t', t.put slot s = .ok t' ∧ t'.Placed n ∧ t'.filled = t.filled ++ [(slot, s)] := by
  have hlt : slot < t.entries.length := by rw [h.length]; exact hslot
  refine ⟨{ entries := t.entries.set slot { t.entries[slot] with symbol := UInt8.ofNat s }
            filled := t.filled ++ [(slot, s)] }, ?_, ⟨?_, ?_, ?_⟩, rfl⟩
  · rw [Spread.put, List.getElem?_eq_getElem hlt]
  · show (t.entries.set _ _).length = n
    rw [List.length_set, h.length]
  · intro pair hpair
    rcases List.mem_append.mp hpair with hpair | hpair
    · obtain ⟨e, he, hsymbol⟩ := h.holds pair hpair
      refine ⟨e, ?_, hsymbol⟩
      have hother : slot ≠ pair.1 := fun hsame => hnew (hsame ▸ List.mem_map_of_mem hpair)
      show (t.entries.set _ _)[pair.1]? = some e
      rw [List.getElem?_set_ne hother]
      exact he
    · obtain rfl := List.mem_singleton.mp hpair
      exact ⟨_, List.getElem?_set_self hlt, rfl⟩
  · show ((t.filled ++ [(slot, s)]).map Prod.fst).Nodup
    rw [List.map_append]
    refine List.nodup_append.mpr ⟨h.distinct, List.nodup_singleton _, fun a ha b hb => ?_⟩
    obtain rfl := List.mem_singleton.mp hb
    exact fun hsame => hnew (hsame ▸ ha)

/-! ## The top -/

/-- The last free slot, when `d` slots are taken from the top. -/
def highAt (n d : Nat) : Nat := if d < n then n - 1 - d else 2 ^ 64 - 1

theorem wrappingPred_highAt {d : Nat} (hn : n < 2 ^ 63) (hd : d < n) :
    wrappingPred (highAt n d) = highAt n (d + 1) := by
  rw [highAt, if_pos hd, wrappingPred, highAt]
  split <;> omega

/-- The symbols of low probability fill the top. -/
theorem placeLow_placed (counts : List Int) {s d : Nat} (hn : n < 2 ^ 63) (h : t.Placed n)
    (hfew : d + lowCount counts ≤ n) (htop : ∀ slot ∈ t.filled.map Prod.fst, n - d ≤ slot) :
    ∃ t' low, placeLow counts s t (highAt n d) =
        .ok (t', highAt n (d + lowCount counts), counts.map firstNumber) ∧
      t'.Placed n ∧ t'.filled = t.filled ++ low ∧ low.map Prod.snd = lowSymbols counts s ∧
      ∀ slot ∈ low.map Prod.fst, n - (d + lowCount counts) ≤ slot := by
  induction counts generalizing s d t with
  | nil => exact ⟨t, [], rfl, h, (List.append_nil _).symm, rfl, fun _ hslot => absurd hslot (by simp)⟩
  | cons count counts ih =>
    by_cases hlow : count = -1
    · have hcount : lowCount (count :: counts) = lowCount counts + 1 := by
        simp [lowCount, hlow]
      rw [hcount] at hfew ⊢
      have hhigh : highAt n d = n - 1 - d := if_pos (by omega)
      have hnew : n - 1 - d ∉ t.filled.map Prod.fst := fun hmem => by
        have := htop _ hmem
        omega
      obtain ⟨t₁, hput, hplaced, hfilled⟩ := h.put (by omega) hnew s
      have htop₁ : ∀ slot ∈ t₁.filled.map Prod.fst, n - (d + 1) ≤ slot := by
        intro slot hslot
        rw [hfilled, List.map_append] at hslot
        rcases List.mem_append.mp hslot with hslot | hslot
        · have := htop slot hslot
          omega
        · obtain rfl := List.mem_singleton.mp hslot
          show n - (d + 1) ≤ n - 1 - d
          omega
      obtain ⟨t', low, hplace, hplaced', hfilled', hsymbols, hslots⟩ :=
        ih (s := s + 1) hplaced (by omega) htop₁
      have hsum : d + 1 + lowCount counts = d + (lowCount counts + 1) := by omega
      rw [hsum] at hplace hslots
      refine ⟨t', (n - 1 - d, s) :: low, ?_, hplaced', ?_, ?_, ?_⟩
      · rw [placeLow, if_pos hlow, wrappingPred_highAt hn (by omega), hhigh]
        simp only [hput, hplace, bind, Except.bind, List.map_cons, firstNumber, hlow, if_true]
      · rw [hfilled', hfilled, List.append_assoc]
        rfl
      · rw [List.map_cons, hsymbols, lowSymbols, if_pos hlow]
      · intro slot hslot
        rcases List.mem_cons.mp hslot with rfl | hslot
        · show n - (d + (lowCount counts + 1)) ≤ n - 1 - d
          omega
        · exact hslots slot hslot
    · have hcount : lowCount (count :: counts) = lowCount counts := by
        simp [lowCount, hlow]
      rw [hcount] at hfew ⊢
      obtain ⟨t', low, hplace, hplaced', hfilled', hsymbols, hslots⟩ := ih (s := s + 1) h hfew htop
      refine ⟨t', low, ?_, hplaced', hfilled', ?_, hslots⟩
      · rw [placeLow, if_neg hlow]
        simp only [hplace, bind, Except.bind, List.map_cons, firstNumber, hlow, if_false]
      · rw [hsymbols, lowSymbols, if_neg hlow]

/-! ## The walk -/

/-- Write symbols at the stops of the walk, one after the other. -/
def walk (step mask high : Nat) : List Nat → Spread → Nat → Except ZstdFault (Spread × Nat)
  | [], t, position => .ok (t, position)
  | s :: ss, t, position => do
    let t ← t.put position s
    let position ← advance step mask high (mask + 1) position
    walk step mask high ss t position

section

variable {step mask high : Nat}

theorem walk_append (as bs : List Nat) (t : Spread) (position : Nat) :
    walk step mask high (as ++ bs) t position =
      walk step mask high as t position >>= fun r => walk step mask high bs r.1 r.2 := by
  induction as generalizing t position with
  | nil => rfl
  | cons a as ih =>
    rw [List.cons_append, walk, walk]
    cases hput : t.put position a with
    | error e => rfl
    | ok t' =>
      simp only [bind, Except.bind]
      cases hadvance : advance step mask high (mask + 1) position with
      | error e => rfl
      | ok position' => exact ih t' position'

theorem spreadSymbol_walk (s count : Nat) (t : Spread) (position : Nat) :
    spreadSymbol step mask high s count t position =
      walk step mask high (List.replicate count s) t position := by
  induction count generalizing t position with
  | zero => rfl
  | succ count ih =>
    rw [spreadSymbol, List.replicate_succ, walk]
    simp only [ih]

/-- The nested loops write the symbols one after the other. -/
theorem spreadSymbols_walk (counts : List Int) (s : Nat) (t : Spread) (position : Nat) :
    spreadSymbols step mask high counts s t position =
      walk step mask high (walkSymbols counts s) t position := by
  induction counts generalizing s t position with
  | nil => rfl
  | cons count counts ih =>
    rw [spreadSymbols, walkSymbols, walk_append, spreadSymbol_walk]
    simp only [ih]

end

/-- The walk has made `k` steps, and stands below `m`; the slots before it are `top`. -/
structure Walking (n step m : Nat) (top : List (Nat × Nat)) (t : Spread) (walked : List (Nat × Nat))
    (k : Nat) : Prop where
  placed : t.Placed n
  filled : t.filled = top ++ walked
  visited : walked.map Prod.fst = visited n step m k
  steps : k ≤ n
  below : stop n step k < m

section

variable {L step m k : Nat} {top walked : List (Nat × Nat)}

/-- The next stop below `m` is found. -/
theorem advance_finds (step : Nat) (hm : 0 < m) (fuel : Nat) (hk : k < 2 ^ L) (hfuel : 2 ^ L - k ≤ fuel) :
    ∃ k', k < k' ∧ k' ≤ 2 ^ L ∧ stop (2 ^ L) step k' < m ∧
      (∀ i, k + 1 ≤ i → i < k' → m ≤ stop (2 ^ L) step i) ∧
      advance step (2 ^ L - 1) (m - 1) fuel (stop (2 ^ L) step k) = .ok (stop (2 ^ L) step k') := by
  induction fuel generalizing k with
  | zero => omega
  | succ fuel ih =>
    have hstep : (stop (2 ^ L) step k + step) &&& (2 ^ L - 1) = stop (2 ^ L) step (k + 1) := by
      rw [Nat.and_two_pow_sub_one_eq_mod, stop_succ]
    rw [advance]
    simp only [hstep]
    by_cases hover : m - 1 < stop (2 ^ L) step (k + 1)
    · rw [if_pos hover]
      have hmore : k + 1 < 2 ^ L := by
        refine Nat.lt_of_le_of_ne hk fun hend => ?_
        rw [hend, stop, Nat.mul_mod_right] at hover
        omega
      obtain ⟨k', hlt, hle, hbelow, hskip, hadvance⟩ := ih hmore (by omega)
      refine ⟨k', by omega, hle, hbelow, fun i hi hik => ?_, hadvance⟩
      by_cases hfirst : i = k + 1
      · subst hfirst
        omega
      · exact hskip i (by omega) hik
    · rw [if_neg hover]
      exact ⟨k + 1, by omega, hk, by omega, fun i hi hik => by omega, rfl⟩

/-- A turn of the walk writes a slot that is free. -/
theorem Walking.turn (h : Walking (2 ^ L) step m top t walked k) (hstep : Nat.Coprime (2 ^ L) step)
    (hm : m ≤ 2 ^ L) (htop : ∀ slot ∈ top.map Prod.fst, m ≤ slot) (hroom : walked.length < m) (s : Nat) :
    ∃ t₁ t' k', t.put (stop (2 ^ L) step k) s = .ok t₁ ∧
      advance step (2 ^ L - 1) (m - 1) (2 ^ L - 1 + 1) (stop (2 ^ L) step k) =
        .ok (stop (2 ^ L) step k') ∧ t₁ = t' ∧
      Walking (2 ^ L) step m top t' (walked ++ [(stop (2 ^ L) step k, s)]) k' := by
  have hlength : (FiniteState.visited (2 ^ L) step m k).length < m := by
    rw [← h.visited, List.length_map]
    exact hroom
  have hk := lt_of_length_visited hstep hm h.steps hlength
  have hnew : stop (2 ^ L) step k ∉ t.filled.map Prod.fst := by
    rw [h.filled, List.map_append, h.visited]
    intro hmem
    rcases List.mem_append.mp hmem with hmem | hmem
    · have := htop _ hmem
      have := h.below
      omega
    · exact stop_not_mem_visited hstep hk hmem
  obtain ⟨t₁, hput, hplaced, hfilled⟩ := h.placed.put (Nat.lt_of_lt_of_le h.below hm) hnew s
  obtain ⟨k', hlt, hle, hbelow, hskip, hadvance⟩ :=
    advance_finds step (m := m) (by omega) (2 ^ L - 1 + 1) hk (by omega)
  refine ⟨t₁, t₁, k', hput, hadvance, rfl, hplaced, ?_, ?_, hle, hbelow⟩
  · rw [hfilled, h.filled, List.append_assoc]
  · rw [List.map_append, h.visited, visited_skip hlt hskip, visited_succ h.below]
    rfl

/-- The walk writes all the symbols it is given. -/
theorem Walking.run (h : Walking (2 ^ L) step m top t walked k) (hstep : Nat.Coprime (2 ^ L) step)
    (hm : m ≤ 2 ^ L) (htop : ∀ slot ∈ top.map Prod.fst, m ≤ slot) (ss : List Nat)
    (hroom : walked.length + ss.length ≤ m) :
    ∃ t' written k', walk step (2 ^ L - 1) (m - 1) ss t (stop (2 ^ L) step k) =
        .ok (t', stop (2 ^ L) step k') ∧
      Walking (2 ^ L) step m top t' (walked ++ written) k' ∧ written.map Prod.snd = ss := by
  induction ss generalizing t walked k with
  | nil => exact ⟨t, [], k, rfl, by rw [List.append_nil]; exact h, rfl⟩
  | cons s ss ih =>
    rw [List.length_cons] at hroom
    obtain ⟨t₁, _, k₁, hput, hadvance, rfl, hwalking⟩ := h.turn hstep hm htop (by omega) s
    obtain ⟨t', written, k', hwalk, hwalking', hwritten⟩ := ih hwalking (by
      rw [List.length_append, List.length_singleton]
      omega)
    refine ⟨t', (stop (2 ^ L) step k, s) :: written, k', ?_, ?_, by rw [List.map_cons, hwritten]⟩
    · rw [walk, hput]
      simp only [bind, Except.bind, hadvance, hwalk]
    · rw [List.append_assoc] at hwalking'
      exact hwalking'

end

/-! ## The whole table -/

/-- The step is odd in tables of 16 slots and more. -/
theorem fseTableStep_coprime {L : Nat} (hL : 4 ≤ L) : Nat.Coprime (2 ^ L) (fseTableStep (2 ^ L)) := by
  refine Nat.Coprime.pow_left L (Nat.coprime_two_left.mpr ?_)
  obtain ⟨l, rfl⟩ : ∃ l, L = l + 4 := ⟨L - 4, by omega⟩
  have hsize : 2 ^ (l + 4) = 16 * 2 ^ l := by rw [Nat.pow_add, Nat.mul_comm]
  rw [fseTableStep, hsize, Nat.odd_iff]
  omega

theorem slotTotal_append (as bs : List Int) : slotTotal (as ++ bs) = slotTotal as + slotTotal bs := by
  rw [slotTotal, slotTotal, slotTotal, List.map_append, List.sum_append]

/-- A valid distribution has all its slots up to its largest symbol. -/
theorem NCount.Valid.slotTotal_take {c : NCount} (h : c.Valid) :
    slotTotal (c.normalized.take (c.maxSymbol + 1)) = 2 ^ c.tableLog := by
  have hrest : slotTotal (c.normalized.drop (c.maxSymbol + 1)) = 0 := by
    rw [slotTotal, List.sum_eq_zero]
    intro slots hslots
    obtain ⟨count, hcount, rfl⟩ := List.mem_map.mp hslots
    rw [h.rest count hcount]
    rfl
  have hsplit := slotTotal_append (c.normalized.take (c.maxSymbol + 1))
    (c.normalized.drop (c.maxSymbol + 1))
  rw [List.take_append_drop, hrest, Nat.add_zero, h.total] at hsplit
  exact hsplit.symm

/-- The symbols of all slots, as they are written. -/
def slotSymbols (counts : List Int) : List Nat := lowSymbols counts 0 ++ walkSymbols counts 0

/-- A valid distribution fills its table: the walk ends, where it began, and no slot is written
twice. -/
theorem spreadTable_complete {c : NCount} (h : c.Valid) :
    ∃ t, spreadTable c.normalized c.maxSymbol c.tableLog =
        .ok (t, (c.normalized.take (c.maxSymbol + 1)).map firstNumber) ∧
      t.Complete (c.normalized.take (c.maxSymbol + 1)) (2 ^ c.tableLog) ∧
      t.filled.map Prod.snd = slotSymbols (c.normalized.take (c.maxSymbol + 1)) := by
  have hsymbols := h.symbols
  have hlow := h.tableLog_ge
  have hhigh := h.tableLog_le
  have htotal := h.slotTotal_take
  have hrange : ∀ count ∈ c.normalized.take (c.maxSymbol + 1), -1 ≤ count :=
    fun count hcount => h.range count (List.mem_of_mem_take hcount)
  unfold spreadTable
  rw [if_neg (by omega)]
  generalize c.normalized.take (c.maxSymbol + 1) = counts at htotal hrange
  generalize c.tableLog = L at htotal hlow hhigh
  have hsize : 2 ^ L ≤ 2 ^ 9 := Nat.pow_le_pow_right (by decide) hhigh
  have hwritten := symbols_length hrange 0
  rw [htotal, lowSymbols_length] at hwritten
  have hempty : Spread.Placed (2 ^ L) { entries := List.replicate (2 ^ L) .empty, filled := [] } :=
    ⟨List.length_replicate, fun _ hpair => absurd hpair List.not_mem_nil, List.nodup_nil⟩
  have hstart : highAt (2 ^ L) 0 = 2 ^ L - 1 := by
    have := Nat.two_pow_pos L
    rw [highAt, if_pos this]
    rfl
  obtain ⟨t, low, hplace, hplaced, hfilled, hlowSymbols, hslots⟩ :=
    placeLow_placed counts (s := 0) (d := 0) (by omega) hempty (by omega)
      (fun _ hslot => absurd hslot List.not_mem_nil)
  rw [hstart, Nat.zero_add] at hplace
  rw [Nat.zero_add] at hslots
  rw [List.nil_append] at hfilled
  have hlowLength : low.length = lowCount counts := by
    rw [← lowSymbols_length counts 0, ← hlowSymbols, List.length_map]
  simp only [hplace, bind, Except.bind, spreadSymbols_walk]
  -- What the walk comes to, whether or not slots are left to it.
  have hwalk : ∃ t' written, walk (fseTableStep (2 ^ L)) (2 ^ L - 1)
        (highAt (2 ^ L) (lowCount counts) % 2 ^ 32) (walkSymbols counts 0) t 0 = .ok (t', 0) ∧
      t'.Placed (2 ^ L) ∧ t'.filled = low ++ written ∧ written.map Prod.snd = walkSymbols counts 0 ∧
      ∀ slot ∈ written.map Prod.fst, slot < 2 ^ L - lowCount counts := by
    by_cases hroom : lowCount counts < 2 ^ L
    · have hlast : highAt (2 ^ L) (lowCount counts) % 2 ^ 32 = (2 ^ L - lowCount counts) - 1 := by
        rw [highAt, if_pos hroom]
        omega
      have hbegin : Walking (2 ^ L) (fseTableStep (2 ^ L)) (2 ^ L - lowCount counts) low t [] 0 := by
        refine ⟨hplaced, by rw [hfilled, List.append_nil], rfl, Nat.zero_le _, ?_⟩
        rw [stop, Nat.zero_mul, Nat.zero_mod]
        omega
      have hstep := @fseTableStep_coprime L (Nat.le_trans (by decide) hlow)
      obtain ⟨t', written, k, hwalk, hwalking, hwrittenSymbols⟩ :=
        hbegin.run hstep (by omega) hslots (walkSymbols counts 0) (by
          rw [List.length_nil]
          omega)
      rw [List.nil_append] at hwalking
      have hall : (visited (2 ^ L) (fseTableStep (2 ^ L)) (2 ^ L - lowCount counts) k).length =
          2 ^ L - lowCount counts := by
        rw [← hwalking.visited, List.length_map, ← List.length_map (f := Prod.snd), hwrittenSymbols]
        omega
      have hend := eq_of_length_visited hstep hwalking.steps hwalking.below hall
      have hzero : stop (2 ^ L) (fseTableStep (2 ^ L)) k = 0 := by
        rw [hend, stop, Nat.mul_mod_right]
      have hfrom : stop (2 ^ L) (fseTableStep (2 ^ L)) 0 = 0 := by
        rw [stop, Nat.zero_mul, Nat.zero_mod]
      rw [hzero, hfrom] at hwalk
      refine ⟨t', written, by rw [hlast]; exact hwalk, hwalking.placed, hwalking.filled,
        hwrittenSymbols, fun slot hslot => ?_⟩
      rw [hwalking.visited] at hslot
      exact (mem_visited.mp hslot).1
    · have hnone : walkSymbols counts 0 = [] := List.length_eq_zero_iff.mp (by omega)
      rw [hnone]
      exact ⟨t, [], rfl, hplaced, by rw [hfilled, List.append_nil], rfl,
        fun _ hslot => absurd hslot List.not_mem_nil⟩
  obtain ⟨t', written, hwalk, hplaced', hfilled', hwrittenSymbols, hbelow⟩ := hwalk
  refine ⟨t', ?_, ⟨hplaced'.length, ?_, hplaced'.holds, ?_⟩, ?_⟩
  · rw [hwalk]
    rfl
  · -- As many slots as the table has, all different.
    refine (List.subperm_of_subset hplaced'.distinct fun slot hslot => ?_).perm_of_length_le ?_
    · obtain ⟨pair, hpair, rfl⟩ := List.mem_map.mp hslot
      obtain ⟨e, he, _⟩ := hplaced'.holds pair hpair
      obtain ⟨hlt, _⟩ := List.getElem?_eq_some_iff.mp he
      rw [hplaced'.length] at hlt
      exact List.mem_range.mpr hlt
    · have hwrittenLength : written.length = (walkSymbols counts 0).length := by
        rw [← hwrittenSymbols, List.length_map]
      rw [List.length_range, List.length_map, hfilled', List.length_append, hlowLength, hwrittenLength]
      omega
  · intro i pair hpair
    rw [hfilled', List.getElem?_append, hlowLength] at hpair
    split at hpair
    · rename_i hlt
      have hmem := List.mem_of_getElem? hpair
      have := hslots _ (List.mem_map_of_mem hmem)
      exact iff_of_true hlt this
    · rename_i hge
      have hmem := List.mem_of_getElem? hpair
      have := hbelow _ (List.mem_map_of_mem hmem)
      exact iff_of_false hge (by omega)
  · rw [hfilled', List.map_append, hlowSymbols, hwrittenSymbols]
    rfl

end Iluvatar
