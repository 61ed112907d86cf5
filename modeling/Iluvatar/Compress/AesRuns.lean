/-
AES-CBC decryption over whole runs: any slices, any rooms, and checkpoints on the way.

A stage that is not finished still owes what is staged and the decryption of what it carries with
the ciphertext to come.  One call loses bytes: where the ciphertext has ended before the plaintext
length, staged bytes are written and the call fails all the same, so no count tells of them.
-/
import Iluvatar.Compress.Aes
import Iluvatar.Compress.Stage

namespace Iluvatar

variable {cipher : AesBlock → AesBlock}

theorem cbcPlain_short {prev : AesBlock} {data : List Byte} (h : data.length < aesBlockSize) :
    cbcPlain cipher prev data = [] := by
  rw [cbcPlain, Nat.div_eq_of_lt h]
  rfl

theorem cbcPlain_front {prev : AesBlock} {data : List Byte} (h : aesBlockSize ≤ data.length) :
    cbcPlain cipher prev data = ((cipher (.front data h)).xor prev).bytes ++
      cbcPlain cipher (.front data h) (data.drop aesBlockSize) := by
  have hcount : data.length / aesBlockSize = (data.drop aesBlockSize).length / aesBlockSize + 1 := by
    rw [List.length_drop]
    exact Nat.div_eq_sub_div (by decide) h
  rw [cbcPlain, hcount, cbcBlocks, dif_pos h]
  rfl

theorem cbcPlain_length (cipher : AesBlock → AesBlock) (prev : AesBlock) (data : List Byte) :
    (cbcPlain cipher prev data).length = data.length / aesBlockSize * aesBlockSize := by
  induction hn : data.length using Nat.strongRecOn generalizing prev data with
  | ind n ih =>
    by_cases h : aesBlockSize ≤ data.length
    · have hpositive : 0 < aesBlockSize := by decide
      rw [cbcPlain_front h, List.length_append, AesBlock.size,
        ih _ (by rw [List.length_drop]; omega) _ _ rfl, List.length_drop, ← hn,
        Nat.div_eq_sub_div hpositive h, Nat.add_mul, Nat.one_mul, Nat.add_comm]
    · rw [cbcPlain_short (by omega), Nat.div_eq_of_lt (by omega), Nat.zero_mul]
      rfl

/-- A block that is there in front of more. -/
theorem front_append {data : List Byte} (h : aesBlockSize ≤ data.length) (more : List Byte)
    (h' : aesBlockSize ≤ (data ++ more).length) : AesBlock.front (data ++ more) h' = .front data h := by
  unfold AesBlock.front
  congr 1
  rw [List.take_append_of_le_length h]

namespace AesCbcDecryptor

open Sansio

variable {d d' d₁ : AesCbcDecryptor} {input rest : List Byte}

/-- Some input was taken, and what is owed is unchanged. -/
structure Moved (cipher : AesBlock → AesBlock) (d d' : AesCbcDecryptor) (input rest : List Byte) : Prop where
  len : d'.len = d.len
  produced : d'.produced = d.produced
  finished : d'.finished = d.finished
  owed : ∀ more, d'.staged ++ cbcPlain cipher d'.prev (d'.carry ++ (rest ++ more)) =
    d.staged ++ cbcPlain cipher d.prev (d.carry ++ (input ++ more))
  count : d'.staged.length + d'.carry.length + rest.length = d.staged.length + d.carry.length + input.length
  whole : d'.staged.length % aesBlockSize = d.staged.length % aesBlockSize
  suffix : rest <:+ input

theorem Moved.refl (d : AesCbcDecryptor) (input : List Byte) : Moved cipher d d input input :=
  ⟨rfl, rfl, rfl, fun _ => rfl, rfl, rfl, List.suffix_refl _⟩

theorem Moved.trans {left : List Byte} (h : Moved cipher d d₁ input rest) (h' : Moved cipher d₁ d' rest left) :
    Moved cipher d d' input left where
  len := h'.len.trans h.len
  produced := h'.produced.trans h.produced
  finished := h'.finished.trans h.finished
  owed := fun more => (h'.owed more).trans (h.owed more)
  count := h'.count.trans h.count
  whole := h'.whole.trans h.whole
  suffix := h'.suffix.trans h.suffix

theorem decryptBlock_staged_length (block : AesBlock) :
    (d.decryptBlock cipher block).staged.length = d.staged.length + aesBlockSize := by
  rw [decryptBlock, List.length_append, AesBlock.size]

theorem decryptBlock_moved (hcarry : d.carry = []) (h : aesBlockSize ≤ input.length) :
    Moved cipher d (d.decryptBlock cipher (.front input h)) input (input.drop aesBlockSize) where
  len := rfl
  produced := rfl
  finished := rfl
  owed := by
    intro more
    have hlong : aesBlockSize ≤ (input ++ more).length := by
      rw [List.length_append]
      omega
    show (d.staged ++ _) ++ cbcPlain cipher _ (d.carry ++ _) = _
    rw [hcarry, List.nil_append, List.nil_append, cbcPlain_front hlong, front_append h,
      List.drop_append_of_le_length h, List.append_assoc]
    rfl
  count := by
    rw [decryptBlock_staged_length, List.length_drop]
    show d.staged.length + aesBlockSize + d.carry.length + _ = _
    omega
  whole := by
    rw [decryptBlock_staged_length, Nat.add_mod_right]
  suffix := List.drop_suffix _ _

/-- What decrypting blocks leaves. -/
structure Blocks (cipher : AesBlock → AesBlock) (want : Nat) (d : AesCbcDecryptor) (input : List Byte)
    (d' : AesCbcDecryptor) (rest : List Byte) (missing : Nat) : Prop where
  moved : Moved cipher d d' input rest
  carry : d'.carry = []
  missing_le : missing ≤ want
  staged : d'.staged.length = d.staged.length + aesBlockSize * (want - missing)
  rest_length : rest.length + aesBlockSize * (want - missing) = input.length
  short : 0 < missing → rest.length < aesBlockSize

theorem decryptBlocks_spec (cipher : AesBlock → AesBlock) (input : List Byte) (hcarry : d.carry = [])
    (want : Nat) : Blocks cipher want d input (d.decryptBlocks cipher want input).1
      (d.decryptBlocks cipher want input).2.1 (d.decryptBlocks cipher want input).2.2 := by
  induction want generalizing d input with
  | zero =>
    exact ⟨.refl _ _, hcarry, Nat.le_refl 0, rfl, rfl, fun h => absurd h (Nat.lt_irrefl 0)⟩
  | succ want ih =>
    rw [decryptBlocks]
    by_cases h : aesBlockSize ≤ input.length
    · rw [dif_pos h]
      obtain ⟨hmoved, hempty, hle, hstaged, hrest, hshort⟩ :=
        ih (d := d.decryptBlock cipher (.front input h)) (input.drop aesBlockSize) hcarry
      have hone : want + 1 - ((d.decryptBlock cipher (.front input h)).decryptBlocks cipher want
          (input.drop aesBlockSize)).2.2 = want - ((d.decryptBlock cipher (.front input h)).decryptBlocks cipher want
          (input.drop aesBlockSize)).2.2 + 1 := by omega
      refine ⟨(decryptBlock_moved hcarry h).trans hmoved, hempty, by omega, ?_, ?_, hshort⟩
      · rw [hone, hstaged, decryptBlock_staged_length, Nat.mul_add]
        omega
      · rw [List.length_drop] at hrest
        rw [hone, Nat.mul_add]
        omega
    · rw [dif_neg h]
      refine ⟨.refl _ _, hcarry, Nat.le_refl _, ?_, ?_, fun _ => by simp only; omega⟩
      · rw [Nat.sub_self]
        rfl
      · rw [Nat.sub_self]
        rfl

/-- What completing a block leaves: all of the input is carried, or nothing is. -/
structure Filled (cipher : AesBlock → AesBlock) (d : AesCbcDecryptor) (input : List Byte)
    (d' : AesCbcDecryptor) (rest : List Byte) : Prop where
  moved : Moved cipher d d' input rest
  carry : d'.carry.length < aesBlockSize
  either : d'.carry = [] ∨ d'.staged = d.staged ∧ rest = []
  staged : d'.staged.length ≤ d.staged.length + aesBlockSize
  progress : d.carry ≠ [] → input ≠ [] → rest.length < input.length
  still : d.carry = [] → d' = d ∧ rest = input

theorem fillCarry_spec (cipher : AesBlock → AesBlock) (input : List Byte) (hcarry : d.carry.length < aesBlockSize) :
    Filled cipher d input (d.fillCarry cipher input).1 (d.fillCarry cipher input).2 := by
  unfold fillCarry
  by_cases hempty : d.carry = []
  · rw [if_pos (by rw [hempty]; rfl)]
    exact ⟨.refl _ _, hcarry, .inl hempty, Nat.le_add_right _ _, fun h => absurd hempty h, fun _ => ⟨rfl, rfl⟩⟩
  rw [if_neg (by simpa using hempty)]
  dsimp only
  have hsize : (d.carry ++ input.take (min (aesBlockSize - d.carry.length) input.length)).length =
      d.carry.length + min (aesBlockSize - d.carry.length) input.length := by
    rw [List.length_append, List.length_take]
    omega
  have hpositive := List.length_pos_iff.mpr hempty
  have hsuffix := List.drop_suffix (min (aesBlockSize - d.carry.length) input.length) input
  have hprogress : d.carry ≠ [] → input ≠ [] →
      (input.drop (min (aesBlockSize - d.carry.length) input.length)).length < input.length := by
    intro _ hinput
    have hsome := List.length_pos_iff.mpr hinput
    rw [List.length_drop]
    omega
  by_cases hfull : (d.carry ++ input.take (min (aesBlockSize - d.carry.length) input.length)).length = aesBlockSize
  · rw [dif_pos hfull]
    refine ⟨⟨rfl, rfl, rfl, ?_, ?_, ?_, hsuffix⟩, Nat.zero_lt_succ 15, .inl rfl, ?_, hprogress,
      fun h => absurd h hempty⟩
    · intro more
      have hsplit : d.carry ++ (input ++ more) =
          (d.carry ++ input.take (min (aesBlockSize - d.carry.length) input.length)) ++
            (input.drop (min (aesBlockSize - d.carry.length) input.length) ++ more) := by
        rw [List.append_assoc, ← List.append_assoc (input.take _), List.take_append_drop]
      have hlong : aesBlockSize ≤ (d.carry ++ (input ++ more)).length := by
        rw [hsplit, List.length_append]
        omega
      have hfront : AesBlock.front (d.carry ++ (input ++ more)) hlong = ⟨_, hfull⟩ := by
        unfold AesBlock.front
        congr 1
        rw [hsplit, List.take_left' hfull]
      rw [cbcPlain_front hlong, hfront]
      show (d.staged ++ _) ++ cbcPlain cipher _ ([] ++ _) = _
      rw [hsplit, List.drop_left' hfull, List.append_assoc]
      rfl
    · rw [decryptBlock_staged_length, List.length_drop]
      show d.staged.length + aesBlockSize + 0 + _ = _
      omega
    · rw [decryptBlock_staged_length, Nat.add_mod_right]
    · rw [decryptBlock_staged_length]
  · rw [dif_neg hfull]
    have hall : min (aesBlockSize - d.carry.length) input.length = input.length := by omega
    refine ⟨⟨rfl, rfl, rfl, ?_, ?_, rfl, hsuffix⟩, ?_, .inr ⟨rfl, ?_⟩, Nat.le_add_right _ _, hprogress,
      fun h => absurd h hempty⟩
    · intro more
      rw [hall, List.take_length, List.drop_length]
      show d.staged ++ cbcPlain cipher d.prev ((d.carry ++ input) ++ ([] ++ more)) = _
      rw [List.append_assoc, List.nil_append]
    · show d.staged.length + (d.carry ++ _).length + _ = _
      rw [hsize, List.length_drop]
      omega
    · show (d.carry ++ _).length < _
      omega
    · rw [hall, List.drop_length]

/-- What a call's input leaves. -/
structure Taken (cipher : AesBlock → AesBlock) (d : AesCbcDecryptor) (input : List Byte) (room : Nat)
    (d' : AesCbcDecryptor) (rest : List Byte) : Prop where
  moved : Moved cipher d d' input rest
  carry : d'.carry.length < aesBlockSize
  fits : d'.carry ≠ [] → d'.staged.length ≤ room
  progress : rest.length < input.length

theorem decryptInput_spec (cipher : AesBlock → AesBlock) (hcarry : d.carry.length < aesBlockSize)
    (hstaged : d.staged = []) (hinput : input ≠ []) (room : Nat) :
    Taken cipher d input room (d.decryptInput cipher input room).1 (d.decryptInput cipher input room).2 := by
  unfold decryptInput
  have hfill := fillCarry_spec cipher input hcarry
  generalize d.fillCarry cipher input = filled at hfill
  obtain ⟨d₁, r₁⟩ := filled
  obtain ⟨hmoved, hless, heither, hsize, hprogress, hstill⟩ := hfill
  simp only at hmoved hless heither hsize hprogress hstill ⊢
  have hnone : d.staged.length = 0 := by rw [hstaged]; rfl
  have hblock : aesBlockSize = 16 := rfl
  have hsome := List.length_pos_iff.mpr hinput
  generalize hblocks : (if aesBlockSize ≤ d₁.staged.length then 1 else 0) = blocks
  have hcount : d₁.staged.length = aesBlockSize * blocks := by
    have hwhole := hmoved.whole
    rw [hnone, Nat.zero_mod] at hwhole
    unfold aesBlockSize at *
    split at hblocks <;> omega
  by_cases hempty : d₁.carry = []
  · obtain ⟨hmoved', hnocarry, hle, hlength, hrest, hshort⟩ :=
      decryptBlocks_spec cipher r₁ hempty (max (room / aesBlockSize) 1 - blocks)
    generalize d₁.decryptBlocks cipher (max (room / aesBlockSize) 1 - blocks) r₁ = after
      at hmoved' hnocarry hle hlength hrest hshort
    obtain ⟨d₂, r₂, missing⟩ := after
    simp only at hmoved' hnocarry hle hlength hrest hshort ⊢
    have hback := hmoved'.suffix.length_le
    have hback' := hmoved.suffix.length_le
    by_cases hmissing : 0 < missing ∧ r₂ ≠ []
    · rw [if_pos hmissing]
      have hfew := hshort hmissing.1
      refine ⟨(hmoved.trans hmoved').trans ⟨rfl, rfl, rfl, ?_, ?_, rfl, List.nil_suffix⟩, ?_, fun _ => ?_, hsome⟩
      · intro more
        show d₂.staged ++ cbcPlain cipher d₂.prev ((d₂.carry ++ r₂) ++ ([] ++ more)) = _
        rw [List.append_assoc, List.nil_append]
      · show d₂.staged.length + (d₂.carry ++ r₂).length + 0 = _
        rw [List.length_append]
        omega
      · show (d₂.carry ++ r₂).length < _
        rw [hnocarry, List.nil_append]
        exact hfew
      · show d₂.staged.length ≤ room
        unfold aesBlockSize at *
        omega
    · rw [if_neg hmissing]
      refine ⟨hmoved.trans hmoved', by rw [hnocarry]; decide, fun h => absurd hnocarry h, ?_⟩
      show r₂.length < input.length
      by_cases hbegan : d.carry = []
      · obtain ⟨rfl, rfl⟩ := hstill hbegan
        have hblocks' : blocks = 0 := by
          unfold aesBlockSize at hcount
          omega
        subst hblocks'
        by_cases hzero : 0 < missing
        · have hnil : r₂ = [] := not_not.mp fun h => hmissing ⟨hzero, h⟩
          rw [hnil]
          exact hsome
        · unfold aesBlockSize at *
          omega
      · have := hprogress hbegan hinput
        omega
  · obtain ⟨hsame, rfl⟩ := heither.resolve_left hempty
    have hnostage : d₁.staged.length = 0 := by rw [hsame, hnone]
    have hblocks' : blocks = 0 := by
      unfold aesBlockSize at hcount
      omega
    subst hblocks'
    obtain ⟨want, hwant⟩ : ∃ want, max (room / aesBlockSize) 1 - 0 = want + 1 :=
      ⟨max (room / aesBlockSize) 1 - 1, by omega⟩
    rw [hwant, decryptBlocks, dif_neg (by rw [hblock]; exact Nat.not_succ_le_zero 15)]
    simp only [ne_eq, not_true_eq_false, and_false, if_false]
    exact ⟨hmoved, hless, fun _ => by omega, hsome⟩

/-- What is written of the staged bytes, where the plaintext length is not reached. -/
theorem emit_open {room : Nat} (h : ∀ l, d.len = some l → d.produced + min d.staged.length room < l) :
    d.emit room = (d.staged.take room,
      { d with staged := d.staged.drop room, produced := d.produced + (d.staged.take room).length }) := by
  have hcount : d.emitted room = min d.staged.length room := by
    unfold emitted remaining
    cases hlen : d.len with
    | none => rfl
    | some l =>
      have := h l hlen
      simp only [Option.map_some]
      omega
  have htake : d.staged.take (min d.staged.length room) = d.staged.take room := by
    rw [Nat.min_comm, ← List.take_take, List.take_length]
  have hdrop : d.staged.drop (min d.staged.length room) = d.staged.drop room := by
    rcases Nat.le_total d.staged.length room with hle | hle
    · rw [Nat.min_eq_left hle, List.drop_length, List.drop_eq_nil_of_le hle]
    · rw [Nat.min_eq_right hle]
  have hmore : ({ d with
      staged := d.staged.drop room
      produced := d.produced + (d.staged.take room).length } : AesCbcDecryptor).remaining ≠ some 0 := by
    unfold remaining
    cases hlen : d.len with
    | none => exact nofun
    | some l =>
      have := h l hlen
      simp only [Option.map_some, ne_eq, Option.some.injEq, List.length_take]
      omega
  have hlength : d.produced + min d.staged.length room = d.produced + (d.staged.take room).length := by
    rw [List.length_take, Nat.min_comm]
  unfold emit
  simp only [hcount, htake, hdrop, hlength]
  rw [if_neg hmore]

/-- The plaintext length is reached: the padding is dropped. -/
theorem emit_close {room l : Nat} (hlen : d.len = some l) (h : l ≤ d.produced + min d.staged.length room)
    (hbelow : d.produced ≤ l) :
    d.emit room = (d.staged.take (l - d.produced), { d with finished := true, staged := [], produced := l }) := by
  have hcount : d.emitted room = l - d.produced := by
    unfold emitted remaining
    rw [hlen]
    simp only [Option.map_some]
    omega
  have hsum : d.produced + (l - d.produced) = l := by omega
  unfold emit
  simp only [hcount, hsum]
  rw [if_pos (by unfold remaining; rw [hlen]; simp only [Option.map_some, Nat.sub_self])]

variable {iv : AesBlock} {len : Option Nat} {packed out : List Byte} {c : Nat}

/-- What the stage is to write: the decryption of the ciphertext, cut to the plaintext length. -/
def wanted (cipher : AesBlock → AesBlock) (iv : AesBlock) (len : Option Nat) (packed : List Byte) : List Byte :=
  match len with
  | some l => (cbcPlain cipher iv packed).take l
  | none => cbcPlain cipher iv packed

/-- The ciphertext does not end before the plaintext length or, with no length, inside a block. -/
def Enough (len : Option Nat) (packed : List Byte) : Prop :=
  match len with
  | some l => l ≤ packed.length / aesBlockSize * aesBlockSize
  | none => packed.length % aesBlockSize = 0

instance : Decidable (Enough len packed) := by
  unfold Enough
  cases len with
  | some l => exact inferInstance
  | none => exact inferInstance

/-- How a run ends. -/
def fate (len : Option Nat) (packed : List Byte) : Option Fault :=
  if Enough len packed then none else some (.error .truncatedInput)

/-- Called at the end of the ciphertext, the stage writes its last bytes and fails. -/
def Drops (d : AesCbcDecryptor) (room : Nat) : Prop :=
  d.carry = [] ∧ d.staged ≠ [] ∧ d.staged.length ≤ room ∧ ∃ l, d.len = some l ∧ d.produced + d.staged.length < l

/-- A stage that is not finished, after `c` bytes of the ciphertext and the output `out`. -/
structure Open (cipher : AesBlock → AesBlock) (iv : AesBlock) (len : Option Nat) (packed : List Byte)
    (d : AesCbcDecryptor) (c : Nat) (out : List Byte) : Prop where
  unfinished : d.finished = false
  declared : d.len = len
  produced : d.produced = out.length
  below : ∀ l, len = some l → out.length ≤ l
  within : c ≤ packed.length
  carry : d.carry.length < aesBlockSize
  owed : cbcPlain cipher iv packed = out ++ (d.staged ++ cbcPlain cipher d.prev (d.carry ++ packed.drop c))
  count : out.length + d.staged.length + d.carry.length = c
  whole : (out.length + d.staged.length) % aesBlockSize = 0

/-- A finished stage. -/
structure Done (cipher : AesBlock → AesBlock) (iv : AesBlock) (len : Option Nat) (packed : List Byte)
    (d : AesCbcDecryptor) (c : Nat) (out : List Byte) : Prop where
  finished : d.finished = true
  declared : d.len = len
  produced : d.produced = out.length
  staged : d.staged = []
  all : out = wanted cipher iv len packed
  enough : Enough len packed
  ended : len = none → packed.drop c = []

/-- A stage between two calls. -/
def Stands (cipher : AesBlock → AesBlock) (iv : AesBlock) (len : Option Nat) (packed : List Byte)
    (d : AesCbcDecryptor) (c : Nat) (out : List Byte) : Prop :=
  (Open cipher iv len packed d c out ∧ (d.staged = [] ∨ d.carry = [])) ∨ Done cipher iv len packed d c out

theorem new_stands : Stands cipher iv len packed (new iv len) 0 [] :=
  .inl ⟨⟨rfl, rfl, rfl, fun _ _ => Nat.zero_le _, Nat.zero_le _, Nat.zero_lt_succ 15, rfl, rfl, rfl⟩, .inl rfl⟩

/-- After writing staged bytes the stage is open, with some missing to the length, or done. -/
theorem Open.emit (h : Open cipher iv len packed d c out) (room : Nat) :
    ((d.emit room).1 = d.staged.take room ∧ (d.emit room).2.staged = d.staged.drop room ∧
      (d.emit room).2.carry = d.carry ∧ Open cipher iv len packed (d.emit room).2 c (out ++ (d.emit room).1) ∧
      ∀ l, len = some l → (out ++ (d.emit room).1).length < l) ∨
    ((d.emit room).1.length ≤ room ∧ len ≠ none ∧
      Done cipher iv len packed (d.emit room).2 c (out ++ (d.emit room).1)) := by
  have hproduced := h.produced
  by_cases hopen : ∀ l, d.len = some l → d.produced + min d.staged.length room < l
  · left
    rw [emit_open hopen]
    have hlength : (d.staged.take room).length = min d.staged.length room := by
      rw [List.length_take, Nat.min_comm]
    have hbelow : ∀ l, len = some l → (out ++ d.staged.take room).length < l := by
      intro l hl
      have := hopen l (h.declared.trans hl)
      rw [List.length_append, hlength]
      omega
    refine ⟨rfl, rfl, rfl, ⟨h.unfinished, h.declared, ?_, fun l hl => Nat.le_of_lt (hbelow l hl), h.within, h.carry,
      ?_, ?_, ?_⟩, hbelow⟩
    · rw [List.length_append, ← hproduced]
    · rw [h.owed, List.append_assoc, ← List.append_assoc (d.staged.take room), List.take_append_drop]
    · have hcount := h.count
      simp only [List.length_append, hlength, List.length_drop]
      omega
    · have hwhole := h.whole
      simp only [List.length_append, hlength, List.length_drop]
      rw [show out.length + min d.staged.length room + (d.staged.length - room) = out.length + d.staged.length by omega]
      exact hwhole
  · right
    obtain ⟨l, hl, hreached⟩ : ∃ l, d.len = some l ∧ l ≤ d.produced + min d.staged.length room := by
      by_contra hnone
      exact hopen fun l hl => Nat.lt_of_not_le fun hle => hnone ⟨l, hl, hle⟩
    have hlen : len = some l := h.declared.symm.trans hl
    have hbelow := h.below l hlen
    rw [emit_close hl hreached (by omega)]
    have hfit : l - d.produced ≤ min d.staged.length room := by omega
    have htaken : (d.staged.take (l - d.produced)).length = l - d.produced := by
      rw [List.length_take]
      omega
    refine ⟨by rw [htaken]; omega, hlen ▸ Option.some_ne_none l, rfl, h.declared, ?_, rfl, ?_, ?_, fun hnone => ?_⟩
    · rw [List.length_append, htaken]
      show l = out.length + (l - d.produced)
      omega
    · subst hlen
      rw [wanted, h.owed, List.take_append, List.take_of_length_le hbelow, hproduced,
        List.take_append_of_le_length (by omega)]
    · subst hlen
      rw [Enough, ← cbcPlain_length cipher iv, h.owed, List.length_append, List.length_append]
      omega
    · rw [hlen] at hnone
      cases hnone

/-- What one call did. -/
inductive Served (cipher : AesBlock → AesBlock) (iv : AesBlock) (len : Option Nat) (packed : List Byte)
    (d : AesCbcDecryptor) (c : Nat) (out input : List Byte) (room : Nat) :
    Except Fault (DecompressResult × AesCbcDecryptor) → Prop where
  /-- The ciphertext has ended too early. -/
  | cut : packed.drop c = [] → ¬ Enough len packed → out ++ d.staged = wanted cipher iv len packed →
      (d.staged ≠ [] ↔ d.Drops room) → Served cipher iv len packed d c out input room (.error (.error .truncatedInput))
  | ended {r : DecompressResult} {d' : AesCbcDecryptor} : r.status = .streamEnd → r.bytesConsumed ≤ input.length →
      r.produced.length ≤ room → (len = none → packed.drop c = []) →
      Done cipher iv len packed d' (c + r.bytesConsumed) (out ++ r.produced) →
      Served cipher iv len packed d c out input room (.ok (r, d'))
  | going {r : DecompressResult} {d' : AesCbcDecryptor} : r.status = .continue → r.bytesConsumed ≤ input.length →
      r.produced.length ≤ room → Open cipher iv len packed d' (c + r.bytesConsumed) (out ++ r.produced) →
      d'.staged = [] ∨ d'.carry = [] → (∀ l, len = some l → (out ++ r.produced).length < l) →
      (packed.drop c = [] → d'.staged ≠ []) → 0 < r.bytesConsumed ∨ 0 < r.produced.length →
      Served cipher iv len packed d c out input room (.ok (r, d'))

/-- Nothing more is owed for a carried beginning of a block. -/
theorem Open.owed_end (h : Open cipher iv len packed d c out) (hend : packed.drop c = []) :
    cbcPlain cipher iv packed = out ++ d.staged ∧ packed.length = out.length + d.staged.length + d.carry.length := by
  have howed := h.owed
  have hcount := h.count
  have hwithin := h.within
  rw [hend, List.append_nil, cbcPlain_short h.carry, List.append_nil] at howed
  have hall := List.drop_eq_nil_iff.mp hend
  exact ⟨howed, by omega⟩

/-- The ciphertext ended too early. -/
theorem Open.not_enough (h : Open cipher iv len packed d c out) (hend : packed.drop c = [])
    (hshort : ∀ l, len = some l → out.length + d.staged.length < l) (hcarry : len = none → d.carry ≠ []) :
    ¬ Enough len packed ∧ out ++ d.staged = wanted cipher iv len packed := by
  obtain ⟨howed, hlength⟩ := h.owed_end hend
  cases hlen : len with
  | none =>
    have hpart := List.length_pos_iff.mpr (hcarry hlen)
    have hless := h.carry
    have hwhole := h.whole
    refine ⟨?_, howed.symm⟩
    rw [Enough, hlength, Nat.add_mod, hwhole, Nat.zero_add, Nat.mod_mod, Nat.mod_eq_of_lt hless]
    omega
  | some l =>
    have hmissing := hshort l hlen
    have hplain := congrArg List.length howed
    rw [cbcPlain_length, List.length_append] at hplain
    constructor
    · rw [Enough]
      omega
    · rw [wanted, howed, List.take_of_length_le]
      rw [List.length_append]
      omega

/-- A call at the end of the ciphertext, after it wrote staged bytes. -/
theorem Open.atEnd (h : Open cipher iv len packed d c out) (d₁ : AesCbcDecryptor)
    (hapart : d.staged = [] ∨ d.carry = []) (hend : packed.drop c = []) {room : Nat} (hroom : 0 < room)
    {first : List Byte} (hfirst : first = d.staged.take room) (hstaged : d₁.staged = d.staged.drop room)
    (hcarry : d₁.carry = d.carry) (hopen : Open cipher iv len packed d₁ c (out ++ first))
    (hbelow : ∀ l, len = some l → (out ++ first).length < l) :
    Served cipher iv len packed d c out [] room (d₁.atEnd first) := by
  have hlength : first.length = min d.staged.length room := by
    rw [hfirst, List.length_take, Nat.min_comm]
  have hproduced := hopen.produced
  unfold AesCbcDecryptor.atEnd
  by_cases hpart : d.carry = []
  · rw [if_neg (fun hne => hne (hcarry.trans hpart))]
    by_cases hlast : d.staged.drop room = []
    · have hfits := List.drop_eq_nil_iff.mp hlast
      rw [if_pos (hstaged.trans hlast)]
      cases hlen : len with
      | none =>
        -- all is delivered
        obtain ⟨howed, hcount⟩ := h.owed_end hend
        have hnone : d₁.len = none := hopen.declared.trans hlen
        rw [hnone, if_neg (by simp)]
        refine .ended rfl (Nat.zero_le _) ?_ (fun _ => hend)
          ⟨rfl, rfl, hproduced, hstaged.trans hlast, ?_, ?_, fun _ => hend⟩
        · show first.length ≤ room
          omega
        · rw [wanted, howed, hfirst, List.take_of_length_le hfits]
        · rw [hpart, List.length_nil, Nat.add_zero] at hcount
          rw [Enough, hcount]
          exact h.whole
      | some l =>
        have hmissing := hbelow l hlen
        rw [List.length_append, hlength, Nat.min_eq_left hfits] at hmissing
        rw [List.length_append, hlength, Nat.min_eq_left hfits] at hproduced
        obtain ⟨hcut, hall⟩ := h.not_enough hend
          (fun l' hl' => by
            obtain rfl := Option.some.inj (hlen.symm.trans hl')
            exact hmissing)
          (fun hnone => by rw [hlen] at hnone; cases hnone)
        rw [hlen] at hcut hall
        have hdeclared : d₁.len = some l := hopen.declared.trans hlen
        have hmore : d₁.remaining ≠ some 0 := by
          rw [remaining, hdeclared, Option.map_some, ne_eq, Option.some.injEq, hproduced]
          omega
        rw [hdeclared, if_pos ⟨rfl, hmore⟩]
        refine .cut hend hcut hall
          ⟨fun hsome => ⟨hpart, hsome, hfits, l, h.declared.trans hlen, ?_⟩, fun hdrops => hdrops.2.1⟩
        rw [h.produced]
        exact hmissing
    · have hmore : room < d.staged.length := Nat.lt_of_not_le fun hle => hlast (List.drop_eq_nil_of_le hle)
      have hleft : d₁.staged ≠ [] := by rwa [hstaged]
      rw [if_neg hleft]
      refine .going ?_ (Nat.zero_le _) ?_ hopen (.inr (hcarry.trans hpart)) hbelow (fun _ => hleft) (.inr ?_)
      · show (if d₁.finished = true then _ else _) = _
        rw [if_neg (Bool.eq_false_iff.mp hopen.unfinished)]
      · show first.length ≤ room
        omega
      · show 0 < first.length
        omega
  · have hnone := hapart.resolve_right hpart
    rw [if_pos (by rwa [hcarry])]
    obtain ⟨hcut, hall⟩ := h.not_enough hend
      (fun l hl => by
        have := hbelow l hl
        rw [List.length_append, hlength] at this
        rw [hnone] at this ⊢
        simp only [List.length_nil, Nat.zero_min] at this ⊢
        exact this)
      (fun _ => hpart)
    exact .cut hend hcut hall ⟨fun hsome => absurd hnone hsome, fun hdrops => absurd hdrops.1 hpart⟩

theorem Done.emit (h : Done cipher iv len packed d c out) (room : Nat) :
    (d.emit room).1 = [] ∧ Done cipher iv len packed (d.emit room).2 c out := by
  have hnone : d.emitted room = 0 := by
    unfold emitted
    rw [h.staged]
    cases d.remaining with
    | none => exact Nat.zero_min room
    | some l => simp only [List.length_nil, Nat.zero_min]
  unfold AesCbcDecryptor.emit
  simp only [hnone, h.staged, List.take_nil, List.drop_nil, Nat.add_zero, true_and]
  split
  · exact ⟨rfl, h.declared, h.produced, rfl, h.all, h.enough, h.ended⟩
  · exact ⟨h.finished, h.declared, h.produced, rfl, h.all, h.enough, h.ended⟩

/-- What the stage is after it took input. -/
theorem Open.taken {room : Nat} (h : Open cipher iv len packed d c out) (hinput : input <+: packed.drop c)
    (htaken : Taken cipher d input room d' rest) :
    Open cipher iv len packed d' (c + (input.length - rest.length)) out := by
  obtain ⟨more, hmore⟩ := hinput
  obtain ⟨front, hfront⟩ := htaken.moved.suffix
  have hlength := congrArg List.length hfront
  rw [List.length_append] at hlength
  have hsize := congrArg List.length hmore
  rw [List.length_append, List.length_drop] at hsize
  have hwithin := h.within
  have hcount := h.count
  have hcount' := htaken.moved.count
  have hless := htaken.carry
  refine ⟨htaken.moved.finished.trans h.unfinished, htaken.moved.len.trans h.declared,
    htaken.moved.produced.trans h.produced, h.below, by omega, htaken.carry, ?_, by omega, ?_⟩
  · have hrest : packed.drop (c + (input.length - rest.length)) = rest ++ more := by
      rw [← List.drop_drop, ← hmore, ← hfront, List.append_assoc, List.drop_left']
      rw [List.length_append]
      omega
    rw [hrest, htaken.moved.owed more, hmore]
    exact h.owed
  · rw [Nat.add_mod, htaken.moved.whole, ← Nat.add_mod]
    exact h.whole

/-- One call, given what follows in the ciphertext. -/
theorem decompress_served {room : Nat} (h : Stands cipher iv len packed d c out) (hinput : input <+: packed.drop c)
    (hend : input = [] → packed.drop c = []) (hroom : 0 < room) :
    Served cipher iv len packed d c out input room (d.decompress cipher input room) := by
  rcases h with ⟨hopen, hapart⟩ | hdone
  · have hlast := hopen.atEnd (d.emit room).2 hapart
    rcases hopen.emit room with ⟨hfirst, hstaged, hcarry, hopen', hbelow⟩ | ⟨hfits, hsome, hdone⟩
    · unfold decompress
      generalize d.emit room = emitted at hfirst hstaged hcarry hopen' hbelow hlast ⊢
      obtain ⟨first, d₁⟩ := emitted
      simp only at hfirst hstaged hcarry hopen' hbelow hlast ⊢
      have hlength : first.length = min d.staged.length room := by
        rw [hfirst, List.length_take, Nat.min_comm]
      rw [if_neg (Bool.eq_false_iff.mp hopen'.unfinished)]
      by_cases hempty : input = []
      · subst hempty
        rw [if_pos (show ([] : List Byte).isEmpty = true from rfl)]
        exact hlast (hend rfl) hroom hfirst hstaged hcarry hopen' hbelow
      rw [if_neg (by simpa using hempty)]
      by_cases hgo : first.length < room ∧ d₁.staged = []
      · rw [if_pos hgo]
        have htaken := decryptInput_spec cipher hopen'.carry hgo.2 hempty (room - first.length)
        generalize d₁.decryptInput cipher input (room - first.length) = after at htaken
        obtain ⟨d₂, rest⟩ := after
        simp only at htaken ⊢
        have hopen₂ := hopen'.taken hinput htaken
        have hprogress := htaken.progress
        rcases hopen₂.emit (room - first.length) with
          ⟨hsecond, hstaged', hcarry', hopen₃, hbelow'⟩ | ⟨hfits, hsome, hdone⟩
        · generalize d₂.emit (room - first.length) = last at hsecond hstaged' hcarry' hopen₃ hbelow'
          obtain ⟨second, d₃⟩ := last
          simp only at hsecond hstaged' hcarry' hopen₃ hbelow' ⊢
          rw [List.append_assoc] at hopen₃ hbelow'
          refine .going ?_ (Nat.sub_le _ _) ?_ hopen₃ ?_ hbelow' ?_ (.inl ?_)
          · show (if d₃.finished = true then _ else _) = _
            rw [if_neg (Bool.eq_false_iff.mp hopen₃.unfinished)]
          · show (first ++ second).length ≤ room
            rw [List.length_append, hsecond, List.length_take]
            omega
          · by_cases hpart : d₂.carry = []
            · exact .inr (hcarry'.trans hpart)
            · left
              rw [hstaged']
              exact List.drop_eq_nil_of_le (htaken.fits hpart)
          · intro hnothing
            rw [hnothing] at hinput
            exact absurd (List.prefix_nil.mp hinput) hempty
          · show 0 < input.length - rest.length
            omega
        · generalize d₂.emit (room - first.length) = last at hfits hdone
          obtain ⟨second, d₃⟩ := last
          simp only at hfits hdone ⊢
          rw [List.append_assoc] at hdone
          refine .ended ?_ (Nat.sub_le _ _) ?_ (fun hnone => absurd hnone hsome)
            ⟨hdone.finished, hdone.declared, hdone.produced, hdone.staged, hdone.all, hdone.enough, hdone.ended⟩
          · show (if d₃.finished = true then _ else _) = _
            rw [if_pos hdone.finished]
          · show (first ++ second).length ≤ room
            rw [List.length_append]
            omega
      · rw [if_neg hgo]
        have hsome : 0 < first.length := by
          by_contra hnone
          refine hgo ⟨by omega, ?_⟩
          rw [hstaged]
          refine List.drop_eq_nil_of_le ?_
          omega
        refine .going ?_ (Nat.zero_le _) ?_ hopen' ?_ hbelow ?_ (.inr hsome)
        · show (if d₁.finished = true then _ else _) = _
          rw [if_neg (Bool.eq_false_iff.mp hopen'.unfinished)]
        · show first.length ≤ room
          omega
        · rcases hapart with hnone | hnone
          · left
            rw [hstaged, hnone, List.drop_nil]
          · exact .inr (hcarry.trans hnone)
        · intro hnothing
          rw [hnothing] at hinput
          exact absurd (List.prefix_nil.mp hinput) hempty
    · unfold decompress
      generalize d.emit room = emitted at hfits hdone ⊢
      obtain ⟨first, d₁⟩ := emitted
      simp only at hfits hdone ⊢
      rw [if_pos hdone.finished]
      refine .ended ?_ (Nat.zero_le _) hfits (fun hnone => absurd hnone hsome) hdone
      show (if d₁.finished = true then _ else _) = _
      rw [if_pos hdone.finished]
  · obtain ⟨hnone, hdone'⟩ := hdone.emit room
    unfold decompress
    generalize d.emit room = emitted at hnone hdone'
    obtain ⟨first, d₁⟩ := emitted
    simp only at hnone hdone' ⊢
    subst hnone
    rw [if_pos hdone'.finished]
    refine .ended ?_ (Nat.zero_le _) (Nat.zero_le _) hdone'.ended (by rw [List.append_nil]; exact hdone')
    show (if d₁.finished = true then _ else _) = _
    rw [if_pos hdone'.finished]

/-- What can be reached on a ciphertext: calls on what follows in it, with the empty slice only at its
end, and checkpoints restored to a decryptor for the same plaintext length. -/
inductive Reached (cipher : AesBlock → AesBlock) (iv : AesBlock) (len : Option Nat) (packed : List Byte) :
    AesCbcDecryptor → Nat → List Byte → Prop where
  | new : Reached cipher iv len packed (new iv len) 0 []
  | call {d d' : AesCbcDecryptor} {c : Nat} {out input : List Byte} {room : Nat} {r : DecompressResult} :
      Reached cipher iv len packed d c out → input <+: packed.drop c → (input = [] → packed.drop c = []) → 0 < room →
      d.decompress cipher input room = .ok (r, d') →
      Reached cipher iv len packed d' (c + r.bytesConsumed) (out ++ r.produced)
  | restored {d fresh d' : AesCbcDecryptor} {c : Nat} {out : List Byte} {cp : Checkpoint AesCheckpointState} :
      Reached cipher iv len packed d c out → d.checkpoint c out.length = .ok (some cp) → fresh.len = len →
      fresh.restore cp = .ok d' → Reached cipher iv len packed d' c out

/-- Standing does not depend on the initialization vector a decryptor holds. -/
theorem Stands.restored (h : Stands cipher iv len packed d c out) {fresh : AesCbcDecryptor} (hlen : fresh.len = len)
    {a b : Nat} {cp : Checkpoint AesCheckpointState} (hcheckpoint : d.checkpoint a b = .ok (some cp))
    (hrestore : fresh.restore cp = .ok d') : Stands cipher iv len packed d' c out := by
  obtain rfl := Option.some.inj (Except.ok.inj hcheckpoint)
  obtain rfl := Except.ok.inj hrestore
  rcases h with ⟨h, hapart⟩ | h
  · exact .inl ⟨⟨h.unfinished, hlen, h.produced, h.below, h.within, h.carry, h.owed, h.count, h.whole⟩, hapart⟩
  · exact .inr ⟨h.finished, hlen, h.produced, h.staged, h.all, h.enough, h.ended⟩

theorem Reached.stands (h : Reached cipher iv len packed d c out) : Stands cipher iv len packed d c out := by
  induction h with
  | new => exact new_stands
  | call _ hinput hend hroom hok ih =>
    have hserved := decompress_served ih hinput hend hroom
    rw [hok] at hserved
    cases hserved with
    | ended _ _ _ _ hdone => exact .inr hdone
    | going _ _ _ hopen hapart => exact .inl ⟨hopen, hapart⟩
  | restored _ hcheckpoint hlen hrestore ih => exact ih.restored hlen hcheckpoint hrestore

/-- What was written begins what is wanted. -/
theorem Stands.begins (h : Stands cipher iv len packed d c out) : out <+: wanted cipher iv len packed := by
  rcases h with ⟨h, -⟩ | h
  · have howed := h.owed
    cases hlen : len with
    | none => exact ⟨_, howed.symm⟩
    | some l =>
      rw [wanted, howed, List.take_append, List.take_of_length_le (h.below l hlen)]
      exact List.prefix_append _ _
  · exact h.all ▸ List.prefix_refl _

/-- All that is wanted is written: with a length, as many bytes; with none, and the end of the
ciphertext told, the decryption of whole blocks. -/
def Delivered (cipher : AesBlock → AesBlock) (iv : AesBlock) (len : Option Nat) (packed input out : List Byte) : Prop :=
  match len with
  | some l => out.length = l
  | none => input = [] ∧ packed.length % aesBlockSize = 0 ∧ out = cbcPlain cipher iv packed

/-- What a call reports: the end exactly when all is delivered, and a failure only where the
ciphertext has ended too early. -/
structure Reports (cipher : AesBlock → AesBlock) (iv : AesBlock) (len : Option Nat) (packed : List Byte)
    (d : AesCbcDecryptor) (c : Nat) (out input : List Byte) (room : Nat) : Prop where
  ended : ∀ r d', d.decompress cipher input room = .ok (r, d') →
    (r.status = .streamEnd ↔ Delivered cipher iv len packed input (out ++ r.produced))
  failed : ∀ f, d.decompress cipher input room = .error f →
    f = .error .truncatedInput ∧ packed.drop c = [] ∧ ¬ Enough len packed ∧
      (out = wanted cipher iv len packed ↔ ¬ d.Drops room)

theorem Done.delivered (h : Done cipher iv len packed d c out) (hinput : len = none → input = []) :
    Delivered cipher iv len packed input out := by
  have hall := h.all
  have henough := h.enough
  cases len with
  | some l =>
    rw [Delivered, hall, wanted, List.length_take, cbcPlain_length]
    exact Nat.min_eq_left henough
  | none => exact ⟨hinput rfl, henough, hall⟩

theorem Stands.reports {room : Nat} (h : Stands cipher iv len packed d c out) (hinput : input <+: packed.drop c)
    (hend : input = [] → packed.drop c = []) (hroom : 0 < room) :
    Reports cipher iv len packed d c out input room := by
  have hserved := decompress_served h hinput hend hroom
  constructor
  · intro r d' hok
    rw [hok] at hserved
    cases hserved with
    | ended hstatus _ _ hnone hdone =>
      refine ⟨fun _ => hdone.delivered fun hlen => ?_, fun _ => hstatus⟩
      rw [hnone hlen] at hinput
      exact List.prefix_nil.mp hinput
    | going hstatus _ _ hopen _ hbelow hleft _ =>
      constructor
      · intro hended
        rw [hstatus] at hended
        cases hended
      · intro hall
        cases hlen : len with
        | some l =>
          subst hlen
          exact absurd hall (Nat.ne_of_lt (hbelow l rfl))
        | none =>
          subst hlen
          obtain ⟨hnothing, -, hall⟩ := hall
          have howed := congrArg List.length hopen.owed
          rw [hall, List.length_append] at howed
          have hsome := List.length_pos_iff.mpr (hleft (hend hnothing))
          rw [List.length_append] at howed
          omega
  · intro f hfail
    rw [hfail] at hserved
    cases hserved with
    | cut hover hshort hall hdrops =>
      refine ⟨rfl, hover, hshort, ?_⟩
      rw [← hall, List.self_eq_append_right, ← hdrops, not_not]

/-- A call that drops bytes fails. -/
theorem Drops.fails {room : Nat} (h : d.Drops room) (hopen : d.finished = false) :
    d.decompress cipher [] room = .error (.error .truncatedInput) := by
  obtain ⟨hcarry, -, hfits, l, hlen, hmissing⟩ := h
  have hmore : ∀ l', d.len = some l' → d.produced + min d.staged.length room < l' := by
    intro l' hl'
    obtain rfl := Option.some.inj (hlen.symm.trans hl')
    omega
  have hremaining : l - (d.produced + (d.staged.take room).length) ≠ 0 := by
    rw [List.length_take]
    omega
  unfold decompress
  rw [emit_open hmore]
  simp only [hopen, Bool.false_eq_true, if_false, List.isEmpty_nil, if_true, AesCbcDecryptor.atEnd, hcarry,
    not_true_eq_false, ne_eq, List.drop_eq_nil_of_le hfits, hlen, Option.isSome_some, remaining,
    Option.map_some, Option.some.injEq, hremaining, not_false_eq_true, and_self]

/-- The feeding meets no call that drops bytes. -/
def Keeps (cipher : AesBlock → AesBlock) (packed : List Byte) (cuts : Nat → Nat × Nat)
    (g : Going AesCbcDecryptor Byte) : Prop :=
  ∀ n g', feed (asCall (decompress cipher)) packed n cuts g = .going g' → packed.drop g'.consumed = [] →
    ¬ g'.state.Drops ((cuts n).2 + 1)

variable {cuts : Nat → Nat × Nat} {g g' : Going AesCbcDecryptor Byte}

theorem keeps_of_ended {e : Ending Fault Byte}
    (hturn : turn (asCall (decompress cipher)) packed (cuts 0) g = .ended e) :
    Keeps cipher packed cuts g ↔ (packed.drop g.consumed = [] → ¬ g.state.Drops ((cuts 0).2 + 1)) := by
  constructor
  · intro h
    exact h 0 g rfl
  · intro h n g' hfeed
    cases n with
    | zero =>
      injection hfeed with hfeed
      exact hfeed ▸ h
    | succ n =>
      rw [feed, hturn] at hfeed
      cases hfeed

theorem keeps_of_going (hturn : turn (asCall (decompress cipher)) packed (cuts 0) g = .going g')
    (hfirst : packed.drop g.consumed = [] → ¬ g.state.Drops ((cuts 0).2 + 1)) :
    Keeps cipher packed cuts g ↔ Keeps cipher packed (fun i => cuts (i + 1)) g' := by
  constructor
  · intro h n g₁ hfeed
    exact h (n + 1) g₁ (by rw [feed, hturn]; exact hfeed)
  · intro h n g₁ hfeed
    cases n with
    | zero =>
      injection hfeed with hfeed
      exact hfeed ▸ hfirst
    | succ n =>
      rw [feed, hturn] at hfeed
      exact h n g₁ hfeed

/-- Every feeding ends as the ciphertext has it, and wrote all that is wanted exactly where no call
dropped bytes. -/
theorem Stands.ends (h : Stands cipher iv len packed d c out) (cuts : Nat → Nat × Nat) :
    ∃ n e, feed (asCall (decompress cipher)) packed n cuts { state := d, consumed := c, output := out } = .ended e ∧
      e.outcome = fate len packed ∧
      (e.output = wanted cipher iv len packed ↔
        Keeps cipher packed cuts { state := d, consumed := c, output := out }) := by
  induction hm : (packed.length - c) + (packed.length - out.length) using Nat.strongRecOn
    generalizing d c out cuts with
  | ind m ih =>
    have hend : (packed.drop c).take ((cuts 0).1 + 1) = [] → packed.drop c = [] := by
      intro hnil
      exact (List.take_eq_nil_iff.mp hnil).resolve_left (Nat.succ_ne_zero _)
    have hserved := decompress_served h (List.take_prefix ((cuts 0).1 + 1) _) hend (Nat.succ_pos (cuts 0).2)
    have hfirst : ∀ r d', d.decompress cipher ((packed.drop c).take ((cuts 0).1 + 1)) ((cuts 0).2 + 1) = .ok (r, d') →
        packed.drop c = [] → ¬ d.Drops ((cuts 0).2 + 1) := by
      intro r d' hok hover hdrops
      rcases h with ⟨hopen, -⟩ | hdone
      · rw [hover, List.take_nil, hdrops.fails hopen.unfinished] at hok
        cases hok
      · exact hdrops.2.1 hdone.staged
    generalize hcall : d.decompress cipher ((packed.drop c).take ((cuts 0).1 + 1)) ((cuts 0).2 + 1) = answer at hserved
    cases hserved with
    | cut hover hshort hall hdrops =>
      have hturn : turn (asCall (decompress cipher)) packed (cuts 0) { state := d, consumed := c, output := out } =
          .ended { outcome := some (.error .truncatedInput), consumed := c, output := out } := by
        rw [turn, asCall, hcall]
      refine ⟨1, _, by rw [feed, hturn], ?_, ?_⟩
      · rw [fate, if_neg hshort]
      · rw [keeps_of_ended hturn, ← hall, List.self_eq_append_right]
        constructor
        · intro hnone _ hdrop
          exact hdrop.2.1 hnone
        · intro hkeep
          exact not_not.mp (fun hsome => hkeep hover (hdrops.mp hsome))
    | @ended r d' hstatus _ _ _ hdone =>
      have hturn : turn (asCall (decompress cipher)) packed (cuts 0) { state := d, consumed := c, output := out } =
          .ended { outcome := none, consumed := c + r.bytesConsumed, output := out ++ r.produced } := by
        simp only [turn, asCall, hcall, hstatus, beq_self_eq_true, if_true]
      refine ⟨1, _, by rw [feed, hturn], ?_, ?_⟩
      · rw [fate, if_pos hdone.enough]
      · rw [keeps_of_ended hturn]
        exact ⟨fun _ => hfirst r d' hcall, fun _ => hdone.all⟩
    | @going r d' hstatus hconsumed _ hopen hapart _ _ hprogress =>
      have hturn : turn (asCall (decompress cipher)) packed (cuts 0) { state := d, consumed := c, output := out } =
          .going { state := d', consumed := c + r.bytesConsumed, output := out ++ r.produced } := by
        simp only [turn, asCall, hcall, hstatus]
        rfl
      have hcount := hopen.count
      have hwithin := hopen.within
      rw [List.length_append] at hcount
      obtain ⟨n, e, hfeed, hfate, hiff⟩ := ih ((packed.length - (c + r.bytesConsumed)) +
        (packed.length - (out ++ r.produced).length)) (by rw [List.length_append]; omega)
        (.inl ⟨hopen, hapart⟩) (fun i => cuts (i + 1)) rfl
      refine ⟨n + 1, e, by rw [feed, hturn]; exact hfeed, hfate, ?_⟩
      rw [hiff, keeps_of_going hturn (hfirst r d' hcall)]

/-- From whatever was reached, also over checkpoints: what was written begins the decryption cut to
the plaintext length; a call reports the end exactly when all is written and fails only where the
ciphertext ended too early; fed on in any cuts, the decryptor ends as the ciphertext has it, and the
whole was written exactly where no call dropped bytes. -/
theorem delivers_iff (h : Reached cipher iv len packed d c out) :
    out <+: wanted cipher iv len packed ∧
      (∀ input room, input <+: packed.drop c → (input = [] → packed.drop c = []) → 0 < room →
        Reports cipher iv len packed d c out input room) ∧
      ∀ cuts, ∃ n e,
        feed (asCall (decompress cipher)) packed n cuts { state := d, consumed := c, output := out } = .ended e ∧
        e.outcome = fate len packed ∧
        (e.output = wanted cipher iv len packed ↔
          Keeps cipher packed cuts { state := d, consumed := c, output := out }) :=
  ⟨h.stands.begins, fun _ _ hinput hend hroom => h.stands.reports hinput hend hroom, h.stands.ends⟩

/-- A stage for one block, at its start. -/
theorem delivers_iff_new :
    [] <+: wanted id ⟨List.replicate 16 7, rfl⟩ (some 20) (List.replicate 32 0) ∧
      (∀ input room, input <+: (List.replicate 32 0).drop 0 →
        (input = [] → (List.replicate 32 (0 : Byte)).drop 0 = []) → 0 < room →
        Reports id ⟨List.replicate 16 7, rfl⟩ (some 20) (List.replicate 32 0)
          (new ⟨List.replicate 16 7, rfl⟩ (some 20)) 0 [] input room) ∧
      ∀ cuts, ∃ n e, feed (asCall (decompress id)) (List.replicate 32 0) n cuts
          { state := new ⟨List.replicate 16 7, rfl⟩ (some 20), consumed := 0, output := [] } = .ended e ∧
        e.outcome = fate (some 20) (List.replicate 32 0) ∧
        (e.output = wanted id ⟨List.replicate 16 7, rfl⟩ (some 20) (List.replicate 32 0) ↔
          Keeps id (List.replicate 32 0) cuts
            { state := new ⟨List.replicate 16 7, rfl⟩ (some 20), consumed := 0, output := [] }) :=
  delivers_iff .new

/-- Two blocks where four are declared, read into ten bytes at a time: the last two bytes of what the
blocks hold are written by the call that fails. -/
theorem delivers_short : ¬ ∃ e, EndsAs (asCall (decompress id)) (List.replicate 32 0) (fun _ => (31, 9))
    (new ⟨List.replicate 16 7, rfl⟩ (some 64)) e ∧
    e.output = wanted id ⟨List.replicate 16 7, rfl⟩ (some 64) (List.replicate 32 0) := by
  rintro ⟨e, hends, hall⟩
  have hshort : EndsAs (asCall (decompress id)) (List.replicate 32 0) (fun _ => (31, 9))
      (new ⟨List.replicate 16 7, rfl⟩ (some 64))
      { outcome := some (.error .truncatedInput), consumed := 32
        output := List.replicate 16 7 ++ List.replicate 14 0 } := ⟨5, by rfl⟩
  rw [hends.unique hshort] at hall
  have hlength := congrArg List.length hall
  revert hlength
  decide

end AesCbcDecryptor
end Iluvatar
