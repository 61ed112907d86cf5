/-
Branch/call/jump converters and the Delta filter, as decoding stages.

A filter never changes the byte count, but a converter may need up to a few bytes past an
instruction before it can rewrite it, so a stage holds back the tail of each chunk.
-/
import Iluvatar.Compress.Decompressor
import Iluvatar.Library.Scanner
import Mathlib.Data.Nat.Init

namespace Iluvatar

open Sansio

/-- Input taken per call. -/
def filterChunk : Nat := 64 * 1024

/-- Delta distances are 1 to 256. -/
def deltaHistory : Nat := 256

/-- Instruction-set families with a converter. -/
inductive BcjArch where
  | x86
  | powerPc
  | ia64
  | arm
  | armThumb
  | sparc
  | arm64
  | riscV
  deriving DecidableEq, Repr

/-- The last bytes written, in a ring. -/
structure DeltaState where
  history : Vector Byte deltaHistory
  histPos : Byte

inductive FilterState where
  | bcj (arch : BcjArch) (prevMask prevPos : UInt32)
  | delta (distance : Nat) (ring : DeltaState)

namespace Filter

/-! The converters.  Each says how many leading bytes of its buffer are final; positions are the
low 32 bits of the stream offset.  A converter that looks at `width` bytes and replaces the first
of them, as long as there are as many, is a scanner; its state is the position.  What a converter
and the encoder it undoes differ in, where it is only this, is how an address and a position make
the other address: `address`. -/

/-- The scanner of a converter that keeps nothing but its position. -/
def positional (width : Nat) (word : UInt32 → List Byte → List Byte)
    (moves : ∀ pc w, w.length = width → 0 < (word pc w).length ∧ (word pc w).length ≤ width) :
    Scanner UInt32 Byte where
  width := width
  step := fun pc w => (word pc w, pc + UInt32.ofNat (word pc w).length)
  moves := moves

def armWord (address : UInt32 → UInt32 → UInt32) (pc : UInt32) : List Byte → List Byte
  | [b0, b1, b2, b3] =>
    if b3 = 0xEB then
      let src : UInt32 := (b2.toUInt32 <<< 16 ||| b1.toUInt32 <<< 8 ||| b0.toUInt32) <<< 2
      let dest : UInt32 := address src (pc + 8) >>> 2
      [dest.toUInt8, (dest >>> 8).toUInt8, (dest >>> 16).toUInt8, b3]
    else [b0, b1, b2, b3]
  | w => w

/-- A pair of halfwords is four bytes, anything else two. -/
def armThumbPair (address : UInt32 → UInt32 → UInt32) (pc : UInt32) : List Byte → List Byte
  | [b0, b1, b2, b3] =>
    if b1 &&& 0xF8 = 0xF0 ∧ b3 &&& 0xF8 = 0xF8 then
      let src : UInt32 := ((b1.toUInt32 &&& 7) <<< 19 ||| b0.toUInt32 <<< 11 |||
        (b3.toUInt32 &&& 7) <<< 8 ||| b2.toUInt32) <<< 1
      let dest : UInt32 := address src (pc + 4) >>> 1
      [(dest >>> 11).toUInt8, (0xF0 : Byte) ||| ((dest >>> 19) &&& 7).toUInt8, dest.toUInt8,
        (0xF8 : Byte) ||| ((dest >>> 8) &&& 7).toUInt8]
    else [b0, b1]
  | w => w

def powerPcWord (address : UInt32 → UInt32 → UInt32) (pc : UInt32) : List Byte → List Byte
  | [b0, b1, b2, b3] =>
    if b0 >>> 2 = 0x12 ∧ b3 &&& 3 = 1 then
      let src : UInt32 := (b0.toUInt32 &&& 3) <<< 24 ||| b1.toUInt32 <<< 16 ||| b2.toUInt32 <<< 8 |||
        (b3.toUInt32 &&& ~~~3)
      let dest : UInt32 := address src pc
      [(0x48 : Byte) ||| ((dest >>> 24) &&& 0x03).toUInt8, (dest >>> 16).toUInt8, (dest >>> 8).toUInt8,
        (b3 &&& 0x03) ||| dest.toUInt8]
    else [b0, b1, b2, b3]
  | w => w

def sparcWord (address : UInt32 → UInt32 → UInt32) (pc : UInt32) : List Byte → List Byte
  | [b0, b1, b2, b3] =>
    if (b0 = 0x40 ∧ b1 &&& 0xC0 = 0x00) ∨ (b0 = 0x7F ∧ b1 &&& 0xC0 = 0xC0) then
      let src : UInt32 := (b0.toUInt32 <<< 24 ||| b1.toUInt32 <<< 16 ||| b2.toUInt32 <<< 8 ||| b3.toUInt32) <<< 2
      let dest : UInt32 := address src pc >>> 2
      let dest : UInt32 := (((0 : UInt32) - ((dest >>> 22) &&& 1)) <<< 22 &&& 0x3FFFFFFF) |||
        (dest &&& 0x3FFFFF) ||| 0x40000000
      [(dest >>> 24).toUInt8, (dest >>> 16).toUInt8, (dest >>> 8).toUInt8, dest.toUInt8]
    else [b0, b1, b2, b3]
  | w => w

/-- Which slots of a bundle hold branches, by its template. -/
def branchTable : List UInt32 :=
  [0, 0, 0, 0, 0, 0, 0, 0, 0, 0, 0, 0, 0, 0, 0, 0, 4, 4, 6, 6, 0, 0, 7, 7, 4, 4, 0, 0, 4, 4, 0, 0]

/-- Bytes as a number, the first the lowest. -/
def loadLe : List Byte → UInt64
  | [] => 0
  | b :: bs => b.toUInt64 ||| loadLe bs <<< 8

def storeLe : Nat → UInt64 → List Byte
  | 0, _ => []
  | n + 1, x => x.toUInt8 :: storeLe n (x >>> 8)

/-- A slot of an instruction bundle, at its bit. -/
def ia64Slot (address : UInt32 → UInt32 → UInt32) (pc : UInt32) (bitPos : Nat) (w : List Byte) : List Byte :=
  let bytePos := bitPos >>> 3
  let bitRes := UInt64.ofNat (bitPos &&& 7)
  let instruction : UInt64 := loadLe ((w.drop bytePos).take 6)
  let instNorm : UInt64 := instruction >>> bitRes
  if (instNorm >>> 37) &&& 0xF = 0x5 ∧ (instNorm >>> 9) &&& 0x7 = 0 then
    let src : UInt32 := ((instNorm >>> 13) &&& 0xFFFFF).toUInt32
    let src : UInt32 := src ||| ((instNorm >>> 36) &&& 1).toUInt32 <<< 20
    let src : UInt32 := src <<< 4
    let dest : UInt32 := address src pc >>> 4
    let instNorm : UInt64 := instNorm &&& ~~~((0x8FFFFF : UInt64) <<< 13)
    let instNorm : UInt64 := instNorm ||| (dest &&& 0xFFFFF).toUInt64 <<< 13
    let instNorm : UInt64 := instNorm ||| (dest &&& 0x100000).toUInt64 <<< (36 - 20)
    let instruction : UInt64 := instruction &&& ((1 <<< bitRes) - 1)
    let instruction : UInt64 := instruction ||| instNorm <<< bitRes
    w.take bytePos ++ storeLe 6 instruction ++ w.drop (bytePos + 6)
  else w

/-- The slots of a bundle that hold branches, one after the other. -/
def ia64Bundle (address : UInt32 → UInt32 → UInt32) (pc : UInt32) (w : List Byte) : List Byte :=
  let mask : UInt32 := branchTable.getD ((w.headD 0 &&& 0x1F).toNat) 0
  (List.range 3).foldl (fun w i =>
    if (mask >>> UInt32.ofNat i) &&& 1 ≠ 0 then ia64Slot address pc (5 + 41 * i) w else w) w

def load32Le : List Byte → UInt32
  | [b0, b1, b2, b3] => b0.toUInt32 ||| b1.toUInt32 <<< 8 ||| b2.toUInt32 <<< 16 ||| b3.toUInt32 <<< 24
  | _ => 0

def store32Le (x : UInt32) : List Byte :=
  [x.toUInt8, (x >>> 8).toUInt8, (x >>> 16).toUInt8, (x >>> 24).toUInt8]

def arm64Word (address : UInt32 → UInt32 → UInt32) (pc : UInt32) (w : List Byte) : List Byte :=
  let instr : UInt32 := load32Le w
  if instr >>> 26 = 0x25 then
    store32Le ((0x94000000 : UInt32) ||| (address instr (pc >>> 2) &&& 0x03FFFFFF))
  else if instr &&& 0x9F000000 = 0x90000000 then
    let src : UInt32 := ((instr >>> 29) &&& (3 : UInt32)) ||| ((instr >>> 3) &&& (0x001FFFFC : UInt32))
    if (src + 0x00020000) &&& 0x001C0000 ≠ 0 then w
    else
      let instr : UInt32 := instr &&& 0x9000001F
      let dest : UInt32 := address src (pc >>> 12)
      let instr : UInt32 := instr ||| (dest &&& 3) <<< 29
      let instr : UInt32 := instr ||| (dest &&& 0x0003FFFC) <<< 3
      let instr : UInt32 := instr ||| ((0 - (dest &&& 0x00020000)) &&& 0x00E00000)
      store32Le instr
  else w

def notAuipcPair (auipc inst2 : UInt32) : Prop := (((auipc <<< 8) ^^^ (inst2 - 3)) &&& 0xF8003 : UInt32) ≠ 0

instance (auipc inst2 : UInt32) : Decidable (notAuipcPair auipc inst2) := inferInstanceAs (Decidable (_ ≠ _))

def notSpecialAuipc (auipc inst2Rs1 : UInt32) : Prop := (inst2Rs1 &&& 0x1D : UInt32) ≤ (auipc - 0x3117) <<< 18

instance (auipc inst2Rs1 : UInt32) : Decidable (notSpecialAuipc auipc inst2Rs1) :=
  inferInstanceAs (Decidable (_ ≤ _))

def load32Be : List Byte → UInt32
  | [b0, b1, b2, b3] => b0.toUInt32 <<< 24 ||| b1.toUInt32 <<< 16 ||| b2.toUInt32 <<< 8 ||| b3.toUInt32
  | _ => 0

def store32Be (x : UInt32) : List Byte := [(x >>> 24).toUInt8, (x >>> 16).toUInt8, (x >>> 8).toUInt8, x.toUInt8]

/-- JAL is four bytes, a pair eight; what is neither is passed by two, four or six bytes. -/
def riscVInst (pc : UInt32) : List Byte → List Byte
  | [b0, b1, b2, b3, b4, b5, b6, b7] =>
    if b0 = 0xEF then
      let c1 : UInt32 := b1.toUInt32
      if c1 &&& 0x0D ≠ 0 then [b0, b1]
      else
        let c2 : UInt32 := b2.toUInt32
        let c3 : UInt32 := b3.toUInt32
        let addr : UInt32 := ((c1 &&& 0xF0) <<< 13 ||| c2 <<< 9 ||| c3 <<< 1) - pc
        [b0, ((c1 &&& (0x0F : UInt32)) ||| ((addr >>> 8) &&& (0xF0 : UInt32))).toUInt8,
          (((addr >>> 16) &&& (0x0F : UInt32)) ||| ((addr >>> 7) &&& (0x10 : UInt32)) |||
            ((addr <<< 4) &&& (0xE0 : UInt32))).toUInt8,
          (((addr >>> 4) &&& (0x7F : UInt32)) ||| ((addr >>> 13) &&& (0x80 : UInt32))).toUInt8]
    else if b0 &&& 0x7F = 0x17 then
      let inst : UInt32 := load32Le [b0, b1, b2, b3]
      if inst &&& 0xE80 ≠ 0 then
        let candidate : UInt32 := load32Le [b4, b5, b6, b7]
        if notAuipcPair inst candidate then [b0, b1, b2, b3, b4, b5]
        else
          let addr : UInt32 := (inst &&& (0xFFFFF000 : UInt32)) + candidate >>> 20
          let inst : UInt32 := (0x17 : UInt32) ||| (2 : UInt32) <<< 7 ||| candidate <<< 12
          store32Le inst ++ store32Le addr
      else
        let inst2Rs1 : UInt32 := inst >>> 27
        if notSpecialAuipc inst inst2Rs1 then [b0, b1, b2, b3]
        else
          let addr : UInt32 := load32Be [b4, b5, b6, b7] - pc
          let inst2 : UInt32 := inst >>> 12 ||| addr <<< 20
          let inst : UInt32 := (0x17 : UInt32) ||| inst2Rs1 <<< 7 ||| ((addr + 0x800) &&& 0xFFFFF000)
          store32Le inst ++ store32Le inst2
    else [b0, b1]
  | w => w

theorem four_bytes {w : List Byte} (h : w.length = 4) : ∃ b0 b1 b2 b3, w = [b0, b1, b2, b3] := by
  match w, h with
  | [b0, b1, b2, b3], _ => exact ⟨b0, b1, b2, b3, rfl⟩

theorem armWord_length (address : UInt32 → UInt32 → UInt32) (pc : UInt32) {w : List Byte} (h : w.length = 4) :
    (armWord address pc w).length = 4 := by
  obtain ⟨b0, b1, b2, b3, rfl⟩ := four_bytes h
  unfold armWord
  simp only
  split <;> rfl

theorem armThumbPair_moves (address : UInt32 → UInt32 → UInt32) (pc : UInt32) (w : List Byte) (h : w.length = 4) :
    0 < (armThumbPair address pc w).length ∧ (armThumbPair address pc w).length ≤ 4 := by
  obtain ⟨b0, b1, b2, b3, rfl⟩ := four_bytes h
  unfold armThumbPair
  simp only
  split
  · exact ⟨Nat.succ_pos _, Nat.le_refl 4⟩
  · exact ⟨Nat.succ_pos _, Nat.le_add_left 2 2⟩

theorem powerPcWord_length (address : UInt32 → UInt32 → UInt32) (pc : UInt32) {w : List Byte} (h : w.length = 4) :
    (powerPcWord address pc w).length = 4 := by
  obtain ⟨b0, b1, b2, b3, rfl⟩ := four_bytes h
  unfold powerPcWord
  simp only
  split <;> rfl

theorem sparcWord_length (address : UInt32 → UInt32 → UInt32) (pc : UInt32) {w : List Byte} (h : w.length = 4) :
    (sparcWord address pc w).length = 4 := by
  obtain ⟨b0, b1, b2, b3, rfl⟩ := four_bytes h
  unfold sparcWord
  simp only
  split <;> rfl

theorem arm64Word_length (address : UInt32 → UInt32 → UInt32) (pc : UInt32) {w : List Byte} (h : w.length = 4) :
    (arm64Word address pc w).length = 4 := by
  unfold arm64Word
  simp only
  split
  · rfl
  · split
    · split
      · exact h
      · rfl
    · exact h

theorem storeLe_length (n : Nat) (x : UInt64) : (storeLe n x).length = n := by
  induction n generalizing x with
  | zero => rfl
  | succ n ih => rw [storeLe, List.length_cons, ih]

theorem ia64Slot_length (address : UInt32 → UInt32 → UInt32) (pc : UInt32) {bitPos : Nat}
    (hfit : bitPos >>> 3 + 6 ≤ 16) {w : List Byte} (h : w.length = 16) : (ia64Slot address pc bitPos w).length = 16 := by
  unfold ia64Slot
  simp only
  split
  · rw [List.length_append, List.length_append, storeLe_length, List.length_take, List.length_drop, h]
    omega
  · exact h

theorem ia64_slots {i : Nat} (hi : i < 3) : (5 + 41 * i) >>> 3 + 6 ≤ 16 := by
  match i, hi with
  | 0, _ => decide
  | 1, _ => decide
  | 2, _ => decide

theorem ia64Bundle_length (address : UInt32 → UInt32 → UInt32) (pc : UInt32) {w : List Byte}
    (h : w.length = 16) : (ia64Bundle address pc w).length = 16 := by
  unfold ia64Bundle
  simp only
  generalize branchTable.getD ((w.headD 0 &&& 0x1F).toNat) 0 = mask
  have hall : ∀ (is : List Nat) (w : List Byte), (∀ i ∈ is, i < 3) → w.length = 16 →
      (is.foldl (fun w i =>
        if (mask >>> UInt32.ofNat i) &&& 1 ≠ 0 then ia64Slot address pc (5 + 41 * i) w else w) w).length = 16 := by
    intro is
    induction is with
    | nil => exact fun w _ h => h
    | cons i is ih =>
      intro w his h
      rw [List.foldl_cons]
      refine ih _ (fun j hj => his j (List.mem_cons_of_mem i hj)) ?_
      split
      · exact ia64Slot_length address pc (ia64_slots (his i List.mem_cons_self)) h
      · exact h
  exact hall _ w (fun i hi => List.mem_range.mp hi) h

theorem riscVInst_moves (pc : UInt32) (w : List Byte) (h : w.length = 8) :
    0 < (riscVInst pc w).length ∧ (riscVInst pc w).length ≤ 8 := by
  match w, h with
  | [b0, b1, b2, b3, b4, b5, b6, b7], _ =>
    unfold riscVInst
    simp only
    split
    · split <;> exact ⟨Nat.succ_pos _, by simp⟩
    · split
      · split
        · split <;> exact ⟨Nat.succ_pos _, by simp [store32Le]⟩
        · split <;> exact ⟨Nat.succ_pos _, by simp [store32Le]⟩
      · exact ⟨Nat.succ_pos _, by simp⟩

/-- A converter that replaces all of its window. -/
def wordwise (width : Nat) (hwidth : 0 < width) (word : UInt32 → List Byte → List Byte)
    (hword : ∀ pc w, w.length = width → (word pc w).length = width) : Scanner UInt32 Byte :=
  positional width word fun pc w h => by
    rw [hword pc w h]
    exact ⟨hwidth, Nat.le_refl _⟩

def armBy (address : UInt32 → UInt32 → UInt32) : Scanner UInt32 Byte :=
  wordwise 4 (by decide) (armWord address) fun pc _ => armWord_length address pc

def armThumbBy (address : UInt32 → UInt32 → UInt32) : Scanner UInt32 Byte :=
  positional 4 (armThumbPair address) (armThumbPair_moves address)

def powerPcBy (address : UInt32 → UInt32 → UInt32) : Scanner UInt32 Byte :=
  wordwise 4 (by decide) (powerPcWord address) fun pc _ => powerPcWord_length address pc

def sparcBy (address : UInt32 → UInt32 → UInt32) : Scanner UInt32 Byte :=
  wordwise 4 (by decide) (sparcWord address) fun pc _ => sparcWord_length address pc

def ia64By (address : UInt32 → UInt32 → UInt32) : Scanner UInt32 Byte :=
  wordwise 16 (by decide) (ia64Bundle address) fun pc _ => ia64Bundle_length address pc

def arm64By (address : UInt32 → UInt32 → UInt32) : Scanner UInt32 Byte :=
  wordwise 4 (by decide) (arm64Word address) fun pc _ => arm64Word_length address pc

def arm : Scanner UInt32 Byte := armBy (· - ·)

def armThumb : Scanner UInt32 Byte := armThumbBy (· - ·)

def powerPc : Scanner UInt32 Byte := powerPcBy (· - ·)

def sparc : Scanner UInt32 Byte := sparcBy (· - ·)

def ia64 : Scanner UInt32 Byte := ia64By (· - ·)

def arm64 : Scanner UInt32 Byte := arm64By fun src pc => src + (0 - pc)

def riscV : Scanner UInt32 Byte := positional 8 riscVInst riscVInst_moves

/-- Each byte is added to the one `distance` before it. -/
def delta (distance : Nat) : Scanner DeltaState Byte where
  width := 1
  step := fun s w =>
    let b := w.headD 0 + s.history.get ⟨(distance + s.histPos.toNat) % deltaHistory, Nat.mod_lt _ (by decide)⟩
    ([b], { history := s.history.set s.histPos.toNat b s.histPos.toNat_lt, histPos := s.histPos - 1 })
  moves := fun _ _ _ => ⟨Nat.one_pos, Nat.le_refl 1⟩

end Filter
end Iluvatar
