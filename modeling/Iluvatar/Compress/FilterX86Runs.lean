/-
The x86 converter as a scanner.

The mask of the code stands for the markers passed over within the last three bytes, each with
whether its address would have looked convertible.  A marker is converted when at most one of
them is there and it did not look so: the byte that decided it is one of the address, and it is
why the address loop ends.
-/
import Iluvatar.Compress.FilterWords
import Iluvatar.Compress.FilterX86
import Iluvatar.Library.Fallible

namespace Iluvatar

open Sansio

namespace Filter

/-- The markers passed over one, two and three bytes ago, with their test. -/
structure Marks where
  one : Option Bool
  two : Option Bool
  three : Option Bool
  deriving DecidableEq

namespace Marks

def clear : Marks := ⟨none, none, none⟩

def push (m : Marks) (x : Option Bool) : Marks := ⟨x, m.one, m.two⟩

/-- The bits of a marker: that it is there, and its test. -/
def bits : Option Bool → UInt32 → UInt32
  | none, _ => 0
  | some false, bit => bit
  | some true, bit => bit ||| bit <<< 4

def mask (m : Marks) : UInt32 := bits m.one 2 ||| bits m.two 4 ||| bits m.three 8

/-- Where the only marker is that is there, zero if there is none.  It failed its test. -/
def only : Marks → Option Nat
  | ⟨none, none, none⟩ => some 0
  | ⟨some false, none, none⟩ => some 1
  | ⟨none, some false, none⟩ => some 2
  | ⟨none, none, some false⟩ => some 3
  | _ => none

theorem only_iff (m : Marks) : (m.mask >>> 1 ≤ 4 ∧ m.mask >>> 1 ≠ 3) ↔ m.only.isSome = true := by
  obtain ⟨_ | _ | _, _ | _ | _, _ | _ | _⟩ := m <;> decide

theorem only_zero {m : Marks} (h : m.only = some 0) : m.mask = 0 := by
  obtain ⟨_ | _ | _, _ | _ | _, _ | _ | _⟩ := m <;> first | rfl | cases h

/-- The mask of a lone marker leads the table to how far back it is. -/
theorem only_succ {m : Marks} {k : Nat} (h : m.only = some (k + 1)) :
    m.mask ≠ 0 ∧ maskToBitNumber[(m.mask >>> 1).toNat]? = some (k + 1) ∧ k + 1 ≤ 3 := by
  obtain ⟨_ | _ | _, _ | _ | _, _ | _ | _⟩ := m <;> cases h <;> decide

theorem shift_mask (m : Marks) : shiftMask m.mask = (m.push none).mask := by
  obtain ⟨_ | _ | _, _ | _ | _, _ | _ | _⟩ := m <;> decide

theorem shift_marked (m : Marks) (t : Bool) :
    shiftMask (if t then m.mask ||| 1 ||| 0x10 else m.mask ||| 1) = (m.push (some t)).mask := by
  obtain ⟨_ | _ | _, _ | _ | _, _ | _ | _⟩ := m <;> cases t <;> decide

/-- The address bytes that decided the markers' tests. -/
structure Seen (m : Marks) (data : List Byte) : Prop where
  one : ∀ t, m.one = some t → ∃ b, data[3]? = some b ∧ test86MsByte b = t
  two : ∀ t, m.two = some t → ∃ b, data[2]? = some b ∧ test86MsByte b = t
  three : ∀ t, m.three = some t → ∃ b, data[1]? = some b ∧ test86MsByte b = t

theorem seen_clear (data : List Byte) : clear.Seen data where
  one := fun t h => by cases h
  two := fun t h => by cases h
  three := fun t h => by cases h

theorem Seen.append {m : Marks} {data : List Byte} (h : m.Seen data) (more : List Byte) :
    m.Seen (data ++ more) := by
  have hall : ∀ {i : Nat} {t : Bool}, (∃ b, data[i]? = some b ∧ test86MsByte b = t) →
      ∃ b, (data ++ more)[i]? = some b ∧ test86MsByte b = t := by
    rintro i t ⟨b, hb, ht⟩
    obtain ⟨hi, _⟩ := List.getElem?_eq_some_iff.mp hb
    exact ⟨b, (List.getElem?_append_left hi).trans hb, ht⟩
  exact ⟨fun t ht => hall (h.one t ht), fun t ht => hall (h.two t ht), fun t ht => hall (h.three t ht)⟩

theorem Seen.push_none {m : Marks} {b0 : Byte} {data : List Byte} (h : m.Seen (b0 :: data)) :
    (m.push none).Seen data where
  one := fun t ht => by cases ht
  two := fun t ht => h.one t ht
  three := fun t ht => h.two t ht

theorem Seen.push_some {m : Marks} {b0 b4 : Byte} {data : List Byte} (h : m.Seen (b0 :: data))
    (hb : data[3]? = some b4) : (m.push (some (test86MsByte b4))).Seen data where
  one := fun t ht => by
    obtain rfl := Option.some.inj ht
    exact ⟨b4, hb, rfl⟩
  two := fun t ht => h.one t ht
  three := fun t ht => h.two t ht

/-- The byte of the address that a lone marker's test was about. -/
theorem Seen.only {m : Marks} {k : Nat} {data : List Byte} (h : m.Seen data) (hk : m.only = some (k + 1)) :
    ∃ b, data[3 - k]? = some b ∧ test86MsByte b = false := by
  obtain ⟨one, two, three⟩ := m
  rcases one with _ | _ | _ <;> rcases two with _ | _ | _ <;> rcases three with _ | _ | _ <;> cases hk
  · exact h.three false rfl
  · exact h.two false rfl
  · exact h.one false rfl

end Marks

/-- The bits below and at the byte `k` bytes under the top one. -/
def lowBits (k : Nat) : UInt32 := ((1 : UInt32) <<< UInt32.ofNat (32 - k * 8)) - 1

/-- How an address and a position make another, and that adding up and taking away turn the
byte of an address around when its low bits are turned around in between. -/
structure Addressing (address : UInt32 → UInt32 → UInt32) : Prop where
  turned : ∀ src x k, k < 3 → test86MsByte
    (byteAt (address (address src x ^^^ lowBits (k + 1)) x) (2 - k)) = test86MsByte (byteAt src (2 - k))

/-- What the address loop comes to. -/
def x86Dest (address : UInt32 → UInt32 → UInt32) (x : UInt32) (k : Nat) (src : UInt32) : UInt32 :=
  let dest := address src x
  if k ≠ 0 ∧ test86MsByte (byteAt dest (3 - k)) then address (dest ^^^ lowBits k) x else dest

def isMarker (b : Byte) : Prop := b = 0xE8 ∨ b = 0xE9

instance (b : Byte) : Decidable (isMarker b) := inferInstanceAs (Decidable (_ ∨ _))

/-- The address bytes of a converted marker: the top one repeats the bit below it. -/
def addressBytes (dest : UInt32) : List Byte :=
  [dest.toUInt8, (dest >>> 8).toUInt8, (dest >>> 16).toUInt8, (~~~(((dest >>> 24) &&& 1) - 1)).toUInt8]

/-- How many bytes back the lone marker is, for a marker that is converted. -/
def converts (m : Marks) (b4 : Byte) : Option Nat := if test86MsByte b4 then m.only else none

def x86Step (address : UInt32 → UInt32 → UInt32) (s : UInt32 × Marks) : List Byte → List Byte × UInt32 × Marks
  | [b0, b1, b2, b3, b4] =>
    if isMarker b0 then
      match converts s.2 b4 with
      | some k =>
        (b0 :: addressBytes (x86Dest address (s.1 + 5) k (load32Le [b1, b2, b3, b4])), s.1 + 5, .clear)
      | none => ([b0], s.1 + 1, s.2.push (some (test86MsByte b4)))
    else ([b0], s.1 + 1, s.2.push none)
  | w => (w, s)

theorem five_bytes {w : List Byte} (h : w.length = 5) : ∃ b0 b1 b2 b3 b4, w = [b0, b1, b2, b3, b4] := by
  match w, h with
  | [b0, b1, b2, b3, b4], _ => exact ⟨b0, b1, b2, b3, b4, rfl⟩

/-- The x86 converter, over the markers passed over. -/
def x86Scanner (address : UInt32 → UInt32 → UInt32) : Scanner (UInt32 × Marks) Byte where
  width := 5
  step := x86Step address
  moves := by
    intro s w h
    obtain ⟨b0, b1, b2, b3, b4, rfl⟩ := five_bytes h
    unfold x86Step
    simp only
    split
    · split
      · exact ⟨Nat.succ_pos _, Nat.le_refl 5⟩
      · exact ⟨Nat.one_pos, Nat.le_add_left 1 4⟩
    · exact ⟨Nat.one_pos, Nat.le_add_left 1 4⟩

theorem xor_ones {n a : Nat} (h : a < 2 ^ n) : a ^^^ (2 ^ n - 1) = 2 ^ n - 1 - a := by
  have hnot := congrArg BitVec.toNat (BitVec.xor_allOnes (x := BitVec.ofNat n a))
  rw [BitVec.toNat_xor, BitVec.toNat_allOnes, BitVec.toNat_not, BitVec.toNat_ofNat, Nat.mod_eq_of_lt h] at hnot
  exact hnot

theorem test_eq (b : Byte) : test86MsByte b = (decide (b.toNat = 0) || decide (b.toNat = 255)) := by
  unfold test86MsByte
  rw [beq_eq_decide, beq_eq_decide]
  exact congrArg₂ _ (decide_eq_decide.mpr UInt8.toNat_inj.symm) (decide_eq_decide.mpr UInt8.toNat_inj.symm)

theorem test_complement {b c : Byte} (h : c.toNat = 255 - b.toNat) : test86MsByte c = test86MsByte b := by
  have hb := b.toNat_lt
  rw [test_eq, test_eq, h, Bool.or_comm]
  exact congrArg₂ _ (decide_eq_decide.mpr (by omega)) (decide_eq_decide.mpr (by omega))

/-- The low bits of a word turned around. -/
theorem xor_lowBits (x : UInt32) {k : Nat} (hk : k < 3) : (x ^^^ lowBits (k + 1)).toNat % 2 ^ (24 - 8 * k) =
    2 ^ (24 - 8 * k) - 1 - x.toNat % 2 ^ (24 - 8 * k) := by
  have hlow : (lowBits (k + 1)).toNat = 2 ^ (24 - 8 * k) - 1 := by
    match k, hk with
    | 0, _ => rfl
    | 1, _ => rfl
    | 2, _ => rfl
  rw [UInt32.toNat_xor, hlow, Nat.xor_mod_two_pow, Nat.mod_eq_of_lt (Nat.sub_lt (Nat.two_pow_pos _) Nat.one_pos)]
  exact xor_ones (Nat.mod_lt _ (Nat.two_pow_pos _))

theorem sub_addressing : Addressing (· - ·) where
  turned := by
    intro src x k hk
    refine test_complement ?_
    rw [byteAt_toNat _ (by omega), byteAt_toNat _ (by omega)]
    have hturn := xor_lowBits (src - x) hk
    generalize (src - x) ^^^ lowBits (k + 1) = turned at hturn
    have hx := x.toNat_lt
    rw [UInt32.toNat_sub] at hturn
    rw [UInt32.toNat_sub]
    match k, hk with
    | 0, _ => omega
    | 1, _ => omega
    | 2, _ => omega

theorem add_addressing : Addressing (· + ·) where
  turned := by
    intro src x k hk
    refine test_complement ?_
    rw [byteAt_toNat _ (by omega), byteAt_toNat _ (by omega)]
    have hturn := xor_lowBits (src + x) hk
    generalize (src + x) ^^^ lowBits (k + 1) = turned at hturn
    rw [UInt32.toNat_add] at hturn
    rw [UInt32.toNat_add]
    match k, hk with
    | 0, _ => omega
    | 1, _ => omega
    | 2, _ => omega

/-- The loop ends, in its first round or its second, where the marker's own byte of the address
did not look convertible. -/
theorem x86Loop_ends {address : UInt32 → UInt32 → UInt32} (h : Addressing address) (here : UInt32) {m : Marks}
    {k : Nat} (hk : m.only = some k) {src : UInt32}
    (hseen : ∀ i, k = i + 1 → test86MsByte (byteAt src (2 - i)) = false) :
    x86Loop address here m.mask x86Rounds src = .ok (x86Dest address (here + 5) k src) := by
  cases k with
  | zero =>
    rw [x86Rounds, x86Loop, Marks.only_zero hk]
    rfl
  | succ k =>
    obtain ⟨hmask, htable, hle⟩ := Marks.only_succ hk
    have hseen := hseen k rfl
    have hlow : shiftAmount (24 - (k + 1) * 8) = .ok (UInt32.ofNat (8 * (2 - k))) := by
      rw [show 24 - (k + 1) * 8 = 8 * (2 - k) by omega]
      exact if_pos (by omega)
    have hhigh : shiftAmount (32 - (k + 1) * 8) = .ok (UInt32.ofNat (32 - (k + 1) * 8)) := if_pos (by omega)
    have hround : ∀ fuel src, x86Loop address here m.mask (fuel + 1) src =
        if test86MsByte (byteAt (address src (here + 5)) (2 - k)) then
          x86Loop address here m.mask fuel (address src (here + 5) ^^^ lowBits (k + 1))
        else .ok (address src (here + 5)) := by
      intro fuel src
      rw [x86Loop]
      simp only [if_neg hmask, htable, hlow, hhigh, bind, Except.bind]
      rfl
    have hturned := h.turned src (here + 5) k (by omega)
    rw [hseen] at hturned
    unfold x86Dest
    rw [x86Rounds, hround]
    by_cases htest : test86MsByte (byteAt (address src (here + 5)) (2 - k)) = true
    · rw [if_pos htest, hround, hturned, if_neg Bool.false_ne_true]
      simp only
      rw [if_pos ⟨Nat.succ_ne_zero k, by rw [show 3 - (k + 1) = 2 - k by omega]; exact htest⟩]
    · rw [if_neg htest]
      simp only
      rw [if_neg fun hf => htest (by rw [show 2 - k = 3 - (k + 1) by omega]; exact hf.2)]

theorem shiftMask_gone (x : UInt32) : ∀ n, 4 ≤ n → shiftMask^[n] x = 0 := by
  have hseven : ∀ n < 128, shiftMask^[4] (UInt32.ofNat n) = 0 := by decide
  have hfour : ∀ x : UInt32, shiftMask^[4] x = 0 := by
    intro x
    have hlt : (x &&& 0x77).toNat < 128 := by
      rw [UInt32.toNat_and]
      exact Nat.lt_of_le_of_lt Nat.and_le_right (by decide)
    have hsmall := hseven _ hlt
    have hsame : shiftMask (x &&& 0x77) = shiftMask x := by
      unfold shiftMask
      rw [UInt32.and_assoc, UInt32.and_self]
    rw [UInt32.ofNat_toNat, Function.iterate_succ_apply, hsame] at hsmall
    exact hsmall
  intro n hn
  obtain ⟨k, rfl⟩ := Nat.exists_eq_add_of_le hn
  rw [Function.iterate_add_apply]
  exact hfour _

/-- The code's state stands for the markers passed over; the last one is at most `far` back. -/
structure Stands (s : X86State) (here : UInt32) (m : Marks) (far : Nat) : Prop where
  back : ∃ back, 0 < back ∧ back ≤ far ∧ s.prevPos = here - UInt32.ofNat back ∧
    shiftMask^[back] s.prevMask = m.mask

theorem stands_initial : Stands .initial 0 .clear 5 := ⟨5, by decide, Nat.le_refl 5, rfl, by decide⟩

theorem Stands.mono {s : X86State} {here : UInt32} {m : Marks} {far far' : Nat} (h : Stands s here m far)
    (hle : far ≤ far') : Stands s here m far' := by
  obtain ⟨back, hpos, hback, hrest⟩ := h.back
  exact ⟨back, hpos, Nat.le_trans hback hle, hrest⟩

theorem sub_back (here : UInt32) {back : Nat} (h : back < 2 ^ 32) :
    (here - (here - UInt32.ofNat back)).toNat = back := by
  have hsame : here - (here - UInt32.ofNat back) = UInt32.ofNat back := by grind
  rw [hsame, UInt32.toNat_ofNat_of_lt' h]

/-- A call moves a marker far back nearer, which changes nothing. -/
theorem Stands.clamp {s : X86State} {here : UInt32} {m : Marks} {far : Nat} (h : Stands s here m far)
    (hfar : far < 2 ^ 32) :
    Stands (if 5 < here - s.prevPos then { s with prevPos := here - 5 } else s) here m 5 := by
  obtain ⟨back, hpos, hback, hprev, hmask⟩ := h.back
  have hoffset : (here - s.prevPos).toNat = back := by
    rw [hprev]
    exact sub_back here (Nat.lt_of_le_of_lt hback hfar)
  split
  · next hlong =>
    have hlong : 5 < back := by
      rw [← hoffset]
      exact UInt32.lt_iff_toNat_lt.mp hlong
    refine ⟨5, by decide, Nat.le_refl 5, rfl, ?_⟩
    rw [← hmask, shiftMask_gone _ back (by omega)]
    exact shiftMask_gone _ 5 (by decide)
  · next hshort =>
    have hshort : back ≤ 5 := by
      rw [← hoffset]
      exact Nat.not_lt.mp fun hf => hshort (UInt32.lt_iff_toNat_lt.mpr hf)
    exact ⟨back, hpos, hshort, hprev, hmask⟩

/-- The mask at a marker. -/
theorem Stands.mask {s : X86State} {here : UInt32} {m : Marks} {far : Nat} (h : Stands s here m far)
    (hfar : far < 2 ^ 32) :
    (if 5 < here - s.prevPos then 0 else shiftMask^[(here - s.prevPos).toNat] s.prevMask) = m.mask := by
  obtain ⟨back, hpos, hback, hprev, hmask⟩ := h.back
  have hoffset : (here - s.prevPos).toNat = back := by
    rw [hprev]
    exact sub_back here (Nat.lt_of_le_of_lt hback hfar)
  split
  · next hlong =>
    have hlong : 5 < back := by
      rw [← hoffset]
      exact UInt32.lt_iff_toNat_lt.mp hlong
    rw [← hmask, shiftMask_gone _ back (by omega)]
  · rw [hoffset, hmask]

theorem Stands.later {s : X86State} {here : UInt32} {m : Marks} {far : Nat} (h : Stands s here m far) :
    Stands s (here + 1) (m.push none) (far + 1) := by
  obtain ⟨back, hpos, hback, hprev, hmask⟩ := h.back
  refine ⟨back + 1, Nat.succ_pos _, Nat.succ_le_succ hback, ?_, ?_⟩
  · rw [hprev, UInt32.ofNat_add]
    grind
  · rw [Function.iterate_succ_apply', hmask, Marks.shift_mask]

theorem x86From_short {address : UInt32 → UInt32 → UInt32} {fuel : Nat} {here : UInt32} {s : X86State}
    {data : List Byte} (hshort : data.length < 5) :
    x86From address fuel here s data = .ok { done := [], rest := data, state := s } := by
  match fuel, data, hshort with
  | 0, _, _ => rfl
  | _ + 1, [], _ => rfl
  | _ + 1, [_], _ => rfl
  | _ + 1, [_, _], _ => rfl
  | _ + 1, [_, _, _], _ => rfl
  | _ + 1, [_, _, _, _], _ => rfl

theorem converts_some {m : Marks} {b4 : Byte} {k : Nat} (h : converts m b4 = some k) :
    test86MsByte b4 = true ∧ m.only = some k := by
  unfold converts at h
  split at h
  · next htest => exact ⟨htest, h⟩
  · cases h

/-- The lone marker's byte is one of the address. -/
theorem seen_byte {m : Marks} {k : Nat} {b0 b1 b2 b3 b4 : Byte} {rest : List Byte}
    (h : m.Seen (b0 :: b1 :: b2 :: b3 :: b4 :: rest)) (hk : m.only = some k) :
    ∀ i, k = i + 1 → test86MsByte (byteAt (load32Le [b1, b2, b3, b4]) (2 - i)) = false := by
  rintro i rfl
  obtain ⟨b, hb, htest⟩ := h.only hk
  obtain ⟨_, _, hle⟩ := Marks.only_succ hk
  obtain ⟨h0, h1, h2, _⟩ := byteAt_load b1 b2 b3 b4
  match i, hle with
  | 0, _ =>
    rw [h2, Option.some.inj hb]
    exact htest
  | 1, _ =>
    rw [h1, Option.some.inj hb]
    exact htest
  | 2, _ =>
    rw [h0, Option.some.inj hb]
    exact htest

theorem five_of_long {data : List Byte} (h : 5 ≤ data.length) :
    ∃ b0 b1 b2 b3 b4 rest, data = b0 :: b1 :: b2 :: b3 :: b4 :: rest := by
  match data, h with
  | b0 :: b1 :: b2 :: b3 :: b4 :: rest, _ => exact ⟨b0, b1, b2, b3, b4, rest, rfl⟩

/-- What a scan of the code comes to, beside that of the scanner. -/
structure Scans (far : Nat) (r : Scanned (UInt32 × Marks) Byte) (s' : X86State) : Prop where
  stands : Stands s' r.state.1 r.state.2 (far + r.done.length)
  seen : r.state.2.Seen r.rest

/-- The scan of the code is that of the scanner: its loops end, its table and its shifts are in
range, and what it keeps stands for the markers passed over. -/
theorem x86From_scans {address : UInt32 → UInt32 → UInt32} (h : Addressing address) :
    ∀ (fuel : Nat) (here : UInt32) (s : X86State) (m : Marks) (far : Nat) (data : List Byte), data.length ≤ fuel →
      Stands s here m far → far + data.length < 2 ^ 32 + 5 → m.Seen data →
      ∃ s', x86From address fuel here s data = .ok
          { done := ((x86Scanner address).run (here, m) data).done
            rest := ((x86Scanner address).run (here, m) data).rest, state := s' } ∧
        Scans far ((x86Scanner address).run (here, m) data) s' := by
  intro fuel
  induction fuel with
  | zero =>
    intro here s m far data hfuel hstands _ hseen
    have hshort : data.length < 5 := by omega
    rw [x86From_short hshort, (x86Scanner address).run_short hshort]
    exact ⟨s, rfl, hstands, hseen⟩
  | succ fuel ih =>
    intro here s m far data hfuel hstands hfar hseen
    by_cases hshort : data.length < 5
    · rw [x86From_short hshort, (x86Scanner address).run_short hshort]
      exact ⟨s, rfl, hstands, hseen⟩
    · obtain ⟨b0, b1, b2, b3, b4, rest, rfl⟩ := five_of_long (Nat.not_lt.mp hshort)
      rw [List.length_cons] at hfuel hfar
      have hfour : 4 ≤ (b1 :: b2 :: b3 :: b4 :: rest).length := Nat.le_add_left 4 _
      have hlong : (x86Scanner address).width ≤ (b0 :: b1 :: b2 :: b3 :: b4 :: rest).length := Nat.le_add_left 5 _
      have hrun := (x86Scanner address).run_step (s := (here, m)) hlong
      have hstep : (x86Scanner address).step (here, m) ((b0 :: b1 :: b2 :: b3 :: b4 :: rest).take 5) =
          x86Step address (here, m) [b0, b1, b2, b3, b4] := rfl
      rw [show (x86Scanner address).width = 5 from rfl, hstep] at hrun
      -- a byte passed over: a marker or not, the mask is that of the markers
      have hpass : ∀ s₁ x, Stands s₁ (here + 1) (m.push x) (far + 1) →
          (m.push x).Seen (b1 :: b2 :: b3 :: b4 :: rest) →
          x86Step address (here, m) [b0, b1, b2, b3, b4] = ([b0], here + 1, m.push x) →
          ∃ s', (do
              let r ← x86From address fuel (here + 1) s₁ (b1 :: b2 :: b3 :: b4 :: rest)
              return { r with done := b0 :: r.done } : Except Fault (Scanned X86State Byte)) = .ok
              { done := ((x86Scanner address).run (here, m) (b0 :: b1 :: b2 :: b3 :: b4 :: rest)).done
                rest := ((x86Scanner address).run (here, m) (b0 :: b1 :: b2 :: b3 :: b4 :: rest)).rest
                state := s' } ∧
            Scans far ((x86Scanner address).run (here, m) (b0 :: b1 :: b2 :: b3 :: b4 :: rest)) s' := by
        intro s₁ x hstands₁ hseen₁ hstep₁
        obtain ⟨s', hscan, hscans⟩ := ih (here + 1) s₁ (m.push x) (far + 1) (b1 :: b2 :: b3 :: b4 :: rest)
          (by omega) hstands₁ (by omega) hseen₁
        rw [hscan, hrun, hstep₁]
        refine ⟨s', rfl, ?_, hscans.seen⟩
        refine hscans.stands.mono ?_
        show far + 1 + ((x86Scanner address).run (here + 1, m.push x) (b1 :: b2 :: b3 :: b4 :: rest)).done.length ≤
          far + (b0 :: ((x86Scanner address).run (here + 1, m.push x) (b1 :: b2 :: b3 :: b4 :: rest)).done).length
        rw [List.length_cons]
        omega
      by_cases hmarker : isMarker b0
      · have hcode : ¬ (b0 ≠ 0xE8 ∧ b0 ≠ 0xE9) := by
          rintro ⟨h₁, h₂⟩
          exact hmarker.elim h₁ h₂
        rw [x86From, if_neg hcode]
        simp only [hstands.mask (by omega)]
        cases hconverts : converts m b4 with
        | some k =>
          obtain ⟨htest, honly⟩ := converts_some hconverts
          have hready := (Marks.only_iff m).mpr (by rw [honly]; rfl)
          rw [if_pos ⟨htest, hready⟩, x86Loop_ends h here honly (seen_byte hseen honly)]
          have hstands₁ : Stands { prevMask := 0, prevPos := here } (here + 5) .clear 5 := by
            refine ⟨5, by decide, Nat.le_refl 5, ?_, shiftMask_gone 0 5 (by decide)⟩
            show here = here + 5 - 5
            grind
          simp only [List.length_cons] at hfuel hfar
          obtain ⟨s', hscan, hscans⟩ := ih (here + 5) { prevMask := 0, prevPos := here } .clear 5 rest
            (by omega) hstands₁ (by omega) (Marks.seen_clear rest)
          have hstep₁ : x86Step address (here, m) [b0, b1, b2, b3, b4] =
              (b0 :: addressBytes (x86Dest address (here + 5) k (load32Le [b1, b2, b3, b4])), here + 5, .clear) := by
            unfold x86Step
            simp only [if_pos hmarker, hconverts]
          rw [hrun, hstep₁]
          simp only [bind, Except.bind, hscan]
          refine ⟨s', rfl, ?_, hscans.seen⟩
          refine hscans.stands.mono ?_
          show 5 + ((x86Scanner address).run (here + 5, .clear) rest).done.length ≤
            far + (b0 :: addressBytes (x86Dest address (here + 5) k (load32Le [b1, b2, b3, b4])) ++
              ((x86Scanner address).run (here + 5, .clear) rest).done).length
          rw [List.length_append]
          show 5 + _ ≤ far + (5 + _)
          omega
        | none =>
          have hready : ¬ (test86MsByte b4 = true ∧ m.mask >>> 1 ≤ 4 ∧ m.mask >>> 1 ≠ 3) := by
            rintro ⟨htest, hready⟩
            have honly := (Marks.only_iff m).mp hready
            unfold converts at hconverts
            rw [if_pos htest] at hconverts
            rw [hconverts] at honly
            cases honly
          rw [if_neg hready]
          refine hpass _ (some (test86MsByte b4)) ⟨1, by decide, Nat.le_add_left 1 far, ?_, ?_⟩
            (hseen.push_some rfl) ?_
          · show here = here + 1 - 1
            grind
          · exact Marks.shift_marked m (test86MsByte b4)
          · unfold x86Step
            simp only [if_pos hmarker, hconverts]
      · have hcode : b0 ≠ 0xE8 ∧ b0 ≠ 0xE9 := ⟨fun hf => hmarker (.inl hf), fun hf => hmarker (.inr hf)⟩
        rw [x86From, if_pos hcode]
        exact hpass s none hstands.later hseen.push_none (if_neg hmarker)

/-- A call of the code scans as the scanner does. -/
theorem x86Scan_scans {address : UInt32 → UInt32 → UInt32} (h : Addressing address) {here : UInt32}
    {s : X86State} {m : Marks} {far : Nat} {data : List Byte} (hstands : Stands s here m far)
    (hfar : far < 2 ^ 32) (hdata : data.length < 2 ^ 32) (hseen : m.Seen data) :
    ∃ s', x86Scan address data here s = .ok
        { done := ((x86Scanner address).run (here, m) data).done
          rest := ((x86Scanner address).run (here, m) data).rest, state := s' } ∧
      Stands s' ((x86Scanner address).run (here, m) data).state.1
        ((x86Scanner address).run (here, m) data).state.2 (max far (5 + data.length)) ∧
      ((x86Scanner address).run (here, m) data).state.2.Seen ((x86Scanner address).run (here, m) data).rest := by
  unfold x86Scan
  split
  · next hshort =>
    rw [(x86Scanner address).run_short hshort]
    exact ⟨s, rfl, hstands.mono (Nat.le_max_left _ _), hseen⟩
  · obtain ⟨s', hscan, hscans⟩ := x86From_scans h data.length here _ m 5 data (Nat.le_refl _)
      (hstands.clamp hfar) (by omega) hseen
    refine ⟨s', hscan, hscans.stands.mono ?_, hscans.seen⟩
    have hlength := (x86Scanner address).run_length (here, m) data
    omega

/-- The scanner's state holds the position. -/
theorem x86_position (address : UInt32 → UInt32 → UInt32) (s : UInt32 × Marks) (data : List Byte) :
    ((x86Scanner address).run s data).state.1 =
      s.1 + UInt32.ofNat ((x86Scanner address).run s data).done.length := by
  induction s, data using (x86Scanner address).scan_induction with
  | short s data hshort =>
    rw [(x86Scanner address).run_short hshort]
    exact (UInt32.add_zero _).symm
  | step s data hlong ih =>
    obtain ⟨b0, b1, b2, b3, b4, rest, rfl⟩ := five_of_long hlong
    have hmoved : (x86Step address s [b0, b1, b2, b3, b4]).2.1 =
        s.1 + UInt32.ofNat (x86Step address s [b0, b1, b2, b3, b4]).1.length := by
      unfold x86Step
      simp only
      split
      · split <;> rfl
      · rfl
    have hstep : (x86Scanner address).step s ((b0 :: b1 :: b2 :: b3 :: b4 :: rest).take (x86Scanner address).width) =
        x86Step address s [b0, b1, b2, b3, b4] := rfl
    rw [hstep] at ih
    rw [(x86Scanner address).run_step hlong, hstep]
    simp only
    rw [ih, hmoved, List.length_append, UInt32.ofNat_add]
    grind

end Filter
end Iluvatar
