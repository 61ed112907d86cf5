/-
The x86 converter undoes its encoder.

Where the encoder converts a marker the decoder finds the same markers before it, an address that
looks convertible, and the position to take away again; where it passes one over, the byte that
decided this still decides it, even if a later marker's address covers it.
-/
import Iluvatar.Compress.FilterRuns

namespace Iluvatar

open Sansio

namespace Filter

/-- Two words that agree in the bits an address is made of. -/
def SameAddress (a b : UInt32) : Prop := a.toNat % 2 ^ 25 = b.toNat % 2 ^ 25

theorem SameAddress.sub {a b : UInt32} (h : SameAddress a b) (x : UInt32) : SameAddress (a - x) (b - x) := by
  unfold SameAddress at h ⊢
  have hx := x.toNat_lt
  rw [UInt32.toNat_sub, UInt32.toNat_sub]
  omega

theorem SameAddress.xor {a b : UInt32} (h : SameAddress a b) (x : UInt32) : SameAddress (a ^^^ x) (b ^^^ x) := by
  unfold SameAddress at h ⊢
  rw [UInt32.toNat_xor, UInt32.toNat_xor, Nat.xor_mod_two_pow, Nat.xor_mod_two_pow, h]

theorem SameAddress.byteAt {a b : UInt32} (h : SameAddress a b) {i : Nat} (hi : i ≤ 2) :
    byteAt a i = byteAt b i := by
  refine UInt8.toNat_inj.mp ?_
  rw [byteAt_toNat a (by omega), byteAt_toNat b (by omega)]
  unfold SameAddress at h
  match i, hi with
  | 0, _ => omega
  | 1, _ => omega
  | 2, _ => omega

/-- The top byte of an address. -/
theorem sign_toNat (dest : UInt32) : (~~~(((dest >>> 24) &&& 1) - 1)).toUInt8.toNat =
    if dest.toNat / 2 ^ 24 % 2 = 1 then 255 else 0 := by
  have hbit : ((dest >>> 24) &&& 1).toNat = dest.toNat / 2 ^ 24 % 2 := by
    rw [UInt32.toNat_and, UInt32.toNat_shiftRight]
    show dest.toNat >>> 24 &&& 1 = _
    rw [Nat.shiftRight_eq_div_pow, Nat.and_one_is_mod]
  split
  · next hone =>
    have : (dest >>> 24) &&& 1 = 1 := UInt32.toNat_inj.mp (hbit.trans hone)
    rw [this]
    rfl
  · next hzero =>
    have : (dest >>> 24) &&& 1 = 0 := UInt32.toNat_inj.mp (hbit.trans (show _ = 0 by omega))
    rw [this]
    rfl

theorem addressBytes_eq (dest : UInt32) : addressBytes dest =
    [byteAt dest 0, byteAt dest 1, byteAt dest 2, (~~~(((dest >>> 24) &&& 1) - 1)).toUInt8] := by
  have hzero : byteAt dest 0 = dest.toUInt8 := by
    refine UInt8.toNat_inj.mp ?_
    rw [byteAt_toNat dest (by decide), UInt32.toNat_toUInt8, Nat.mul_zero, Nat.pow_zero, Nat.div_one]
  rw [hzero]
  rfl

theorem SameAddress.bytes {a b : UInt32} (h : SameAddress a b) : addressBytes a = addressBytes b := by
  have hsign : (~~~(((a >>> 24) &&& 1) - 1)).toUInt8 = (~~~(((b >>> 24) &&& 1) - 1)).toUInt8 := by
    refine UInt8.toNat_inj.mp ?_
    rw [sign_toNat, sign_toNat]
    unfold SameAddress at h
    have : a.toNat / 2 ^ 24 % 2 = b.toNat / 2 ^ 24 % 2 := by omega
    rw [this]
  rw [addressBytes_eq, addressBytes_eq, h.byteAt (by decide), h.byteAt (by decide), h.byteAt (by decide), hsign]

/-- The bytes of an address make it again, and its top byte looks convertible. -/
theorem load_address (dest : UInt32) : SameAddress (load32Le (addressBytes dest)) dest ∧
    test86MsByte (~~~(((dest >>> 24) &&& 1) - 1)).toUInt8 = true := by
  have hsign := sign_toNat dest
  constructor
  · unfold SameAddress
    rw [addressBytes_eq, load32Le_toNat, byteAt_toNat dest (by decide), byteAt_toNat dest (by decide),
      byteAt_toNat dest (by decide), hsign]
    split
    · omega
    · omega
  · rw [test_eq, hsign]
    split
    · rfl
    · rfl

/-- An address whose top byte looks convertible is made of its bytes. -/
theorem bytes_load {b1 b2 b3 b4 : Byte} (h : test86MsByte b4 = true) :
    addressBytes (load32Le [b1, b2, b3, b4]) = [b1, b2, b3, b4] := by
  obtain ⟨h0, h1, h2, _⟩ := byteAt_load b1 b2 b3 b4
  have hsign : (~~~(((load32Le [b1, b2, b3, b4] >>> 24) &&& 1) - 1)).toUInt8 = b4 := by
    refine UInt8.toNat_inj.mp ?_
    rw [sign_toNat, load32Le_toNat]
    have := b1.toNat_lt
    have := b2.toNat_lt
    have := b3.toNat_lt
    rw [test_eq, Bool.or_eq_true, decide_eq_true_iff, decide_eq_true_iff] at h
    rcases h with h | h
    · rw [h]
      split
      · omega
      · rfl
    · rw [h]
      split
      · rfl
      · omega
  rw [addressBytes_eq, h0, h1, h2, hsign]

theorem xor_xor_cancel (a x : UInt32) : a ^^^ x ^^^ x = a := by
  rw [UInt32.xor_assoc, UInt32.xor_self, UInt32.xor_zero]

theorem test_turned (x : UInt32) {i : Nat} (hi : i < 3) :
    test86MsByte (byteAt (x ^^^ lowBits (i + 1)) (2 - i)) = test86MsByte (byteAt x (2 - i)) := by
  refine test_complement ?_
  rw [byteAt_toNat _ (by omega), byteAt_toNat _ (by omega)]
  have hturn := xor_lowBits x hi
  generalize x ^^^ lowBits (i + 1) = turned at hturn
  match i, hi with
  | 0, _ => omega
  | 1, _ => omega
  | 2, _ => omega

/-- The byte of a converted address that a lone marker's test was about fails it still. -/
theorem dest_seen {x src : UInt32} {i : Nat} (hi : i < 3) (hseen : test86MsByte (byteAt src (2 - i)) = false) :
    test86MsByte (byteAt (x86Dest (· + ·) x (i + 1) src) (2 - i)) = false := by
  have hturned := add_addressing.turned src x i hi
  unfold x86Dest
  simp only
  rw [show 3 - (i + 1) = 2 - i by omega]
  split
  · exact hturned.trans hseen
  · next hf =>
    cases hcase : test86MsByte (byteAt (src + x) (2 - i)) with
    | false => rfl
    | true => exact absurd ⟨Nat.succ_ne_zero i, hcase⟩ hf

/-- Taking the position away undoes adding it, through the turns of the loop. -/
theorem dest_inverse {x src : UInt32} {k : Nat} (hk : k ≤ 3)
    (hseen : ∀ i, k = i + 1 → test86MsByte (byteAt src (2 - i)) = false) {e : UInt32}
    (he : SameAddress e (x86Dest (· + ·) x k src)) : SameAddress (x86Dest (· - ·) x k e) src := by
  cases k with
  | zero =>
    have hback : SameAddress (e - x) (src + x - x) := he.sub x
    rw [UInt32.add_sub_cancel] at hback
    exact hback
  | succ i =>
    have hi : i < 3 := hk
    have hseen := hseen i rfl
    unfold x86Dest at he ⊢
    simp only at he ⊢
    rw [show 3 - (i + 1) = 2 - i by omega] at he ⊢
    by_cases htest : test86MsByte (byteAt (src + x) (2 - i)) = true
    · rw [if_pos ⟨Nat.succ_ne_zero i, htest⟩] at he
      have hback := he.sub x
      rw [UInt32.add_sub_cancel] at hback
      have hagain : test86MsByte (byteAt (e - x) (2 - i)) = true := by
        rw [hback.byteAt (by omega), test_turned _ hi]
        exact htest
      rw [if_pos ⟨Nat.succ_ne_zero i, hagain⟩]
      have hturn := (hback.xor (lowBits (i + 1))).sub x
      rw [xor_xor_cancel, UInt32.add_sub_cancel] at hturn
      exact hturn
    · rw [if_neg fun hf => htest hf.2] at he
      have hback := he.sub x
      rw [UInt32.add_sub_cancel] at hback
      rw [if_neg fun hf => by
        rw [hback.byteAt (by omega), hseen] at hf
        exact Bool.false_ne_true hf.2]
      exact hback

/-- What the decoder looks at of data that is encoded further on: the first byte, and the bytes
that decided the markers passed over. -/
structure Shows (m : Marks) (data encoded : List Byte) : Prop where
  head : encoded.head? = data.head?
  seen : m.Seen encoded

/-- A byte passed over, with the encoded data after it. -/
theorem shows_pass {m : Marks} {x : Option Bool} {b0 : Byte} {data more : List Byte} (hseen : m.Seen (b0 :: data))
    (h : Shows (m.push x) data more) : Shows m (b0 :: data) (b0 :: more) where
  head := rfl
  seen :=
    { one := fun t ht => h.seen.two t ht
      two := fun t ht => h.seen.three t ht
      three := fun t ht => by
        obtain ⟨b, hb, htest⟩ := hseen.three t ht
        have hhead := h.head
        rw [List.head?_eq_getElem?, List.head?_eq_getElem?] at hhead
        exact ⟨b, hhead.trans hb, htest⟩ }

/-- A converted marker, with the encoded data after it. -/
theorem shows_converted {m : Marks} {k : Nat} {b0 b1 b2 b3 b4 : Byte} {x : UInt32} {rest more : List Byte}
    (hseen : m.Seen (b0 :: b1 :: b2 :: b3 :: b4 :: rest)) (hk : m.only = some k) :
    Shows m (b0 :: b1 :: b2 :: b3 :: b4 :: rest)
      (b0 :: addressBytes (x86Dest (· + ·) x k (load32Le [b1, b2, b3, b4])) ++ more) := by
  refine ⟨rfl, ?_⟩
  have hbyte := seen_byte hseen hk
  generalize load32Le [b1, b2, b3, b4] = src at hbyte
  have hdest : ∀ i, k = i + 1 → test86MsByte (byteAt (x86Dest (· + ·) x k src) (2 - i)) = false := by
    rintro i rfl
    obtain ⟨_, _, hle⟩ := Marks.only_succ hk
    exact dest_seen hle (hbyte i rfl)
  have hnone : ∀ {P : Bool → Prop} (t : Bool), (none : Option Bool) = some t → P t := by
    intro P t ht
    cases ht
  have hfailed : ∀ {P : Bool → Prop}, P false → ∀ t : Bool, some false = some t → P t := by
    intro P hP t ht
    obtain rfl := Option.some.inj ht
    exact hP
  rw [addressBytes_eq]
  obtain ⟨one, two, three⟩ := m
  rcases one with _ | _ | _ <;> rcases two with _ | _ | _ <;> rcases three with _ | _ | _ <;> cases hk
  · exact ⟨hnone, hnone, hnone⟩
  · exact ⟨hnone, hnone, hfailed ⟨_, rfl, hdest 2 rfl⟩⟩
  · exact ⟨hnone, hfailed ⟨_, rfl, hdest 1 rfl⟩, hnone⟩
  · exact ⟨hfailed ⟨_, rfl, hdest 0 rfl⟩, hnone, hnone⟩

/-- A step of the decoder undoes a step of the encoder. -/
theorem x86_step_inverse {here : UInt32} {m : Marks} {b0 b1 b2 b3 b4 : Byte} {rest : List Byte}
    (hseen : m.Seen (b0 :: b1 :: b2 :: b3 :: b4 :: rest)) :
    let r := x86Step (· + ·) (here, m) [b0, b1, b2, b3, b4]
    let data := b0 :: b1 :: b2 :: b3 :: b4 :: rest
    r.2.2.Seen (data.drop r.1.length) ∧
    ∀ more, more.length = data.length - r.1.length → Shows r.2.2 (data.drop r.1.length) more →
      Shows m data (r.1 ++ more) ∧
      x86Step (· - ·) (here, m) ((r.1 ++ more).take 5) = (data.take r.1.length, r.2) := by
  intro r data
  by_cases hmarker : isMarker b0
  · cases hconverts : converts m b4 with
    | some k =>
      obtain ⟨htest, honly⟩ := converts_some hconverts
      have hr : r = (b0 :: addressBytes (x86Dest (· + ·) (here + 5) k (load32Le [b1, b2, b3, b4])), here + 5, .clear) := by
        show x86Step _ _ _ = _
        unfold x86Step
        simp only [if_pos hmarker, hconverts]
      rw [hr]
      refine ⟨Marks.seen_clear _, fun more _ _ => ⟨shows_converted hseen honly, ?_⟩⟩
      have hbyte := seen_byte hseen honly
      have hle : k ≤ 3 := by
        cases k with
        | zero => exact Nat.zero_le 3
        | succ k => exact (Marks.only_succ honly).2.2
      obtain ⟨hload, hsign⟩ := load_address (x86Dest (· + ·) (here + 5) k (load32Le [b1, b2, b3, b4]))
      have hinverse := dest_inverse hle hbyte hload
      show x86Step (· - ·) (here, m) (b0 :: addressBytes _) = ([b0, b1, b2, b3, b4], here + 5, .clear)
      have hagain : converts m (~~~(((x86Dest (· + ·) (here + 5) k (load32Le [b1, b2, b3, b4]) >>> 24) &&& 1) - 1)).toUInt8
          = some k := (if_pos hsign).trans honly
      have hstep : x86Step (· - ·) (here, m)
          (b0 :: addressBytes (x86Dest (· + ·) (here + 5) k (load32Le [b1, b2, b3, b4]))) =
          (b0 :: addressBytes (x86Dest (· - ·) (here + 5) k
            (load32Le (addressBytes (x86Dest (· + ·) (here + 5) k (load32Le [b1, b2, b3, b4]))))), here + 5, .clear) := by
        rw [addressBytes]
        unfold x86Step
        simp only [if_pos hmarker, hagain]
      rw [hstep, hinverse.bytes, bytes_load htest]
    | none =>
      have hr : r = ([b0], here + 1, m.push (some (test86MsByte b4))) := by
        show x86Step _ _ _ = _
        unfold x86Step
        simp only [if_pos hmarker, hconverts]
      rw [hr]
      refine ⟨hseen.push_some rfl, fun more hlength hshows => ⟨shows_pass hseen hshows, ?_⟩⟩
      have hfour : 4 ≤ more.length := by
        rw [hlength]
        exact Nat.le_add_left 4 _
      obtain ⟨c1, c2, c3, c4, rest', rfl⟩ := four_of_long hfour
      obtain ⟨b, hb, hsame⟩ := hshows.seen.one _ rfl
      obtain rfl : c4 = b := Option.some.inj hb
      have hagain : converts m c4 = none := by
        unfold converts at hconverts ⊢
        rw [hsame]
        exact hconverts
      show x86Step (· - ·) (here, m) [b0, c1, c2, c3, c4] = ([b0], here + 1, m.push (some (test86MsByte b4)))
      unfold x86Step
      simp only [if_pos hmarker, hagain, hsame]
  · have hr : r = ([b0], here + 1, m.push none) := by
      show x86Step _ _ _ = _
      unfold x86Step
      simp only [if_neg hmarker]
    rw [hr]
    refine ⟨hseen.push_none, fun more hlength hshows => ⟨shows_pass hseen hshows, ?_⟩⟩
    have hfour : 4 ≤ more.length := by
      rw [hlength]
      exact Nat.le_add_left 4 _
    obtain ⟨c1, c2, c3, c4, rest', rfl⟩ := four_of_long hfour
    show x86Step (· - ·) (here, m) [b0, c1, c2, c3, c4] = ([b0], here + 1, m.push none)
    unfold x86Step
    simp only [if_neg hmarker]

/-- The decoder's scan undoes the encoder's. -/
theorem x86_inverse (here : UInt32) {m : Marks} {data : List Byte} (h : m.Seen data) :
    (x86Scanner (· - ·)).convert (here, m) ((x86Scanner (· + ·)).convert (here, m) data) = data := by
  refine ((x86Scanner (· + ·)).convert_inverse (x86Scanner (· - ·)) rfl (C := fun s data => s.2.Seen data)
    (V := fun s data encoded => Shows s.2 data encoded) (fun s data hseen _ => ⟨rfl, hseen⟩) ?_ (here, m) data h).2
  intro s data hseen hlong
  obtain ⟨b0, b1, b2, b3, b4, rest, rfl⟩ := five_of_long hlong
  exact x86_step_inverse hseen

end Filter

namespace FilterDecompressor

open Iluvatar.Filter FilterState

/-- The x86 filter gives back what its encoder was given, in any cuts. -/
theorem x86_round_trip (data : List Byte) (h : data.length < 2 ^ 32) (cuts : Nat → Nat × Nat) :
    ∃ r, x86Encode data 0 .initial = .ok r ∧
      EndsAs (asCall decompress) (r.done ++ r.rest) cuts (bcj .x86)
        { outcome := none, consumed := data.length, output := data } := by
  obtain ⟨x', hscan, _⟩ := x86Scan_scans add_addressing stands_initial (by decide) h (Marks.seen_clear data)
  refine ⟨_, hscan, ?_⟩
  have hends := feed_ends x86_begins.follows
    (x86_begins.inv ((x86Scanner (· + ·)).convert (0, .clear) data)) cuts
  rw [x86_inverse 0 (Marks.seen_clear data), (x86Scanner (· + ·)).convert_length] at hends
  exact hends

/-- A call of the address one further on, which is encoded as the sixth. -/
theorem x86_round_trip_call :
    (∃ r, x86Encode [0xE8, 1, 0, 0, 0, 0x90] 0 .initial = .ok r ∧ r.done ++ r.rest = [0xE8, 6, 0, 0, 0, 0x90]) ∧
    EndsAs (asCall decompress) [0xE8, 6, 0, 0, 0, 0x90] (fun _ => (2, 0)) (bcj .x86)
      { outcome := none, consumed := 6, output := [0xE8, 1, 0, 0, 0, 0x90] } := by
  obtain ⟨r, hencoded, hends⟩ := x86_round_trip [0xE8, 1, 0, 0, 0, 0x90] (by decide) fun _ => (2, 0)
  have hbytes : (x86Encode [0xE8, 1, 0, 0, 0, 0x90] 0 .initial).map (fun r => r.done ++ r.rest) =
      .ok [0xE8, 6, 0, 0, 0, 0x90] := by decide +kernel
  rw [hencoded] at hbytes
  have hbytes := Except.ok.inj hbytes
  exact ⟨⟨r, hencoded, hbytes⟩, hbytes ▸ hends⟩

end FilterDecompressor
end Iluvatar
