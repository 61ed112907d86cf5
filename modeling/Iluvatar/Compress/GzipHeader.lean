/-
The gzip header, read slice by slice.

Each field is skipped by looking at no byte past its end, so on any prefix of a stream the
parser asks for more exactly while the prefix is shorter than the header.
-/
import Iluvatar.Compress.Gzip

namespace Iluvatar
namespace GzipDecompressor

/-- `skip` looks at no byte past the place it finds. -/
def Local (skip : List Byte → Nat → Option Nat) : Prop :=
  ∀ buf pos q, pos ≤ buf.length → skip buf pos = some q →
    pos ≤ q ∧ q ≤ buf.length ∧
      ∀ k, pos ≤ k → skip (buf.take k) pos = if q ≤ k then some q else none

theorem Local.bind {f g : List Byte → Nat → Option Nat} (hf : Local f) (hg : Local g) :
    Local (fun buf pos => (f buf pos).bind (g buf)) := by
  intro buf pos q hpos h
  obtain ⟨mid, hmid, hq⟩ := Option.bind_eq_some_iff.mp h
  obtain ⟨hle, hlen, htake⟩ := hf buf pos mid hpos hmid
  obtain ⟨hle', hlen', htake'⟩ := hg buf mid q hlen hq
  refine ⟨by omega, hlen', ?_⟩
  intro k hk
  show (f (buf.take k) pos).bind (g (buf.take k)) = _
  rw [htake k hk]
  by_cases hshort : mid ≤ k
  · rw [if_pos hshort]
    exact htake' k hshort
  · rw [if_neg hshort, if_neg (by omega)]
    rfl

theorem local_whenFlag {skip : List Byte → Nat → Option Nat} (h : Local skip) (flags flag : Byte) :
    Local (fun buf => whenFlag flags flag (skip buf)) := by
  intro buf pos q hpos hq
  by_cases hflag : flags &&& flag ≠ 0
  · simp only [whenFlag, if_pos hflag] at hq ⊢
    exact h buf pos q hpos hq
  · simp only [whenFlag, if_neg hflag, Option.some.injEq] at hq ⊢
    subst hq
    refine ⟨Nat.le_refl _, hpos, ?_⟩
    intro k hk
    rw [if_pos hk]

theorem local_skipText : Local skipText := by
  intro buf pos q hpos h
  obtain ⟨i, hi, rfl⟩ := Option.map_eq_some_iff.mp h
  obtain ⟨hlt, hzero, hbefore⟩ := List.findIdx?_eq_some_iff_getElem.mp hi
  rw [List.length_drop] at hlt
  refine ⟨by omega, by omega, ?_⟩
  intro k hk
  rw [skipText, List.drop_take]
  by_cases hshort : pos + i + 1 ≤ k
  · have hfound : ((buf.drop pos).take (k - pos)).findIdx? (· = 0) = some i := by
      rw [List.findIdx?_eq_some_iff_getElem]
      refine ⟨by rw [List.length_take, List.length_drop]; omega, ?_, ?_⟩
      · rw [List.getElem_take]
        exact hzero
      · intro j hj
        rw [List.getElem_take]
        exact hbefore j hj
    rw [hfound, if_pos hshort]
    rfl
  · have hmissing : ((buf.drop pos).take (k - pos)).findIdx? (· = 0) = none := by
      rw [List.findIdx?_eq_none_iff]
      intro x hx
      obtain ⟨j, hj, rfl⟩ := List.mem_iff_getElem.mp hx
      rw [List.length_take, List.length_drop] at hj
      rw [List.getElem_take]
      exact Bool.eq_false_iff.mpr (hbefore j (by omega))
    rw [hmissing, if_neg hshort]
    rfl

theorem local_skipExtra : Local skipExtra := by
  intro buf pos q hpos h
  simp only [skipExtra] at h
  cases hlow : buf[pos]? with
  | none => simp [hlow] at h
  | some low =>
    cases hhigh : buf[pos + 1]? with
    | none => simp [hlow, hhigh] at h
    | some high =>
      simp only [hlow, hhigh] at h
      split at h
      · cases h
      · obtain rfl := Option.some.inj h
        refine ⟨by omega, by omega, ?_⟩
        intro k hk
        simp only [skipExtra, List.getElem?_take]
        by_cases hboth : pos + 1 < k
        · rw [if_pos (by omega), if_pos hboth, hlow, hhigh]
          simp only [List.length_take]
          by_cases hshort : pos + 2 + (low.toNat + 256 * high.toNat) ≤ k
          · rw [if_pos hshort, if_neg (by omega)]
          · rw [if_neg hshort, if_pos (by omega)]
        · have hnot : ¬ pos + 2 + (low.toNat + 256 * high.toNat) ≤ k := by omega
          rw [if_neg hboth, if_neg hnot]
          split
          · next hnone => cases hnone
          · rfl

theorem local_skipCrc : Local skipCrc := by
  intro buf pos q hpos h
  rw [skipCrc] at h
  split at h
  · cases h
  · obtain rfl := Option.some.inj h
    refine ⟨by omega, by omega, ?_⟩
    intro k hk
    rw [skipCrc, List.length_take]
    by_cases hshort : pos + 2 ≤ k
    · rw [if_pos hshort, if_neg (by omega)]
    · rw [if_neg hshort, if_pos (by omega)]

/-- The optional fields. -/
def skipFields (flags : Byte) (buf : List Byte) (pos : Nat) : Option Nat :=
  (whenFlag flags 4 (skipExtra buf) pos).bind fun pos =>
  (whenFlag flags 8 (skipText buf) pos).bind fun pos =>
  (whenFlag flags 16 (skipText buf) pos).bind fun pos =>
  whenFlag flags 2 (skipCrc buf) pos

theorem local_skipFields (flags : Byte) : Local (skipFields flags) :=
  (local_whenFlag local_skipExtra flags 4).bind <| (local_whenFlag local_skipText flags 8).bind <|
    (local_whenFlag local_skipText flags 16).bind (local_whenFlag local_skipCrc flags 2)

/-- The header of a stream that has one, on every prefix of it. -/
theorem tryParseHeader_take {packed : List Byte} {h : Nat} (hparse : tryParseHeader packed = some h)
    (hpos : 0 < h) : h ≤ packed.length ∧
      ∀ k, tryParseHeader (packed.take k) = if h ≤ k then some h else none := by
  rw [tryParseHeader] at hparse
  by_cases hshort : packed.length < 10
  · rw [if_pos hshort] at hparse
    cases hparse
  rw [if_neg hshort] at hparse
  by_cases hmagic : packed[0]? ≠ some 0x1f ∨ packed[1]? ≠ some 0x8b
  · rw [if_pos hmagic] at hparse
    obtain rfl := Option.some.inj hparse
    exact absurd hpos (Nat.lt_irrefl 0)
  rw [if_neg hmagic] at hparse
  have hfields : skipFields ((packed[3]?).getD 0) packed 10 = some h := hparse
  obtain ⟨hten, hlen, htake⟩ := local_skipFields _ packed 10 h (by omega) hfields
  refine ⟨hlen, ?_⟩
  intro k
  rw [tryParseHeader, List.length_take]
  by_cases hk : k < 10
  · rw [if_pos (by omega), if_neg (by omega)]
  · have hsame : ∀ i, i < 4 → (packed.take k)[i]? = packed[i]? := by
      intro i hi
      rw [List.getElem?_take, if_pos (by omega)]
    rw [if_neg (by omega), hsame 0 (by omega), hsame 1 (by omega), if_neg hmagic, hsame 3 (by omega)]
    exact htake k (by omega)

end GzipDecompressor
end Iluvatar
