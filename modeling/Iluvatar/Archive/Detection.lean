/-
Archive format detection on a growing buffer.

Detection is asked again each time the buffer grows; an answer once given stands.
-/
import Iluvatar.Archive.Cpio

namespace Iluvatar

/-- The first two bytes tell an old cpio archive, whatever follows. -/
def oldCpioMagic : List Byte → Bool
  | b₀ :: b₁ :: _ =>
    b₀.toNat + 256 * b₁.toNat == 0o070707 || 256 * b₀.toNat + b₁.toNat == 0o070707
  | _ => false

theorem oldCpioMagic_append {d : List Byte} (h : 2 ≤ d.length) (rest : List Byte) :
    oldCpioMagic (d ++ rest) = oldCpioMagic d := by
  match d, h with
  | b₀ :: b₁ :: _, _ => rfl

theorem detectArchiveFormat_cases (d : List Byte) : detectArchiveFormat d =
    if 8 ≤ d.length ∧ (d.take 8 = arMagic ∨ d.take 8 = thinMagic) then some .ar
    else if 6 ≤ d.length ∧ (d.take 6 = newcMagic ∨ d.take 6 = newcCrcMagic ∨ d.take 6 = odcMagic) then
      some .cpio
    else if oldCpioMagic d then some .cpio
    else if minDetectBytes ≤ d.length then some .tar
    else none := by
  match d with
  | [] => rfl
  | [_] => rfl
  | _ :: _ :: _ => rfl

/-- The magic of an ar archive is no magic of a cpio archive. -/
theorem arMagic_not_cpio {d : List Byte} (h : d.take 8 = arMagic ∨ d.take 8 = thinMagic) :
    ¬ (d.take 6 = newcMagic ∨ d.take 6 = newcCrcMagic ∨ d.take 6 = odcMagic) ∧
      oldCpioMagic d = false := by
  have hsix : d.take 6 = (d.take 8).take 6 := by rw [List.take_take]; rfl
  have hold : oldCpioMagic d = oldCpioMagic (d.take 8) := by
    match d with
    | [] | [_] | _ :: _ :: _ => rfl
  rcases h with har | hthin
  · rw [hsix, hold, har]
    decide
  · rw [hsix, hold, hthin]
    decide

/-- A format once detected stays. -/
theorem detectArchiveFormat_append {d : List Byte} {format : ArchiveFormat}
    (h : detectArchiveFormat d = some format) (rest : List Byte) :
    detectArchiveFormat (d ++ rest) = some format := by
  have hlen : (d ++ rest).length = d.length + rest.length := List.length_append
  have htake : ∀ n, n ≤ d.length → (d ++ rest).take n = d.take n :=
    fun n hn => List.take_append_of_le_length hn
  rw [detectArchiveFormat_cases] at h ⊢
  by_cases har : 8 ≤ d.length ∧ (d.take 8 = arMagic ∨ d.take 8 = thinMagic)
  · rw [if_pos har] at h
    rwa [if_pos ⟨by omega, by rw [htake 8 har.1]; exact har.2⟩]
  rw [if_neg har] at h
  by_cases hcpio : 6 ≤ d.length ∧ (d.take 6 = newcMagic ∨ d.take 6 = newcCrcMagic ∨ d.take 6 = odcMagic)
  · rw [if_pos hcpio] at h
    have hsix := htake 6 hcpio.1
    rw [if_neg, if_pos ⟨by omega, by rw [hsix]; exact hcpio.2⟩]
    · exact h
    · rintro ⟨_, har'⟩
      have hnot := (arMagic_not_cpio har').1
      rw [hsix] at hnot
      exact hnot hcpio.2
  rw [if_neg hcpio] at h
  by_cases hold : oldCpioMagic d = true
  · rw [if_pos hold] at h
    obtain rfl := Option.some.inj h
    have htwo : 2 ≤ d.length := by
      match d, hold with
      | _ :: _ :: _, _ => exact Nat.le_add_left 2 _
    have hold' : oldCpioMagic (d ++ rest) = true := by rw [oldCpioMagic_append htwo, hold]
    rw [if_neg]
    · rw [if_pos hold']
      split <;> rfl
    · rintro ⟨_, har'⟩
      rw [(arMagic_not_cpio har').2] at hold'
      exact absurd hold' (by simp)
  rw [if_neg hold] at h
  by_cases hlong : minDetectBytes ≤ d.length
  · rw [if_pos hlong] at h
    rw [minDetectBytes] at hlong
    rw [hlen, htake 8 (by omega), htake 6 (by omega), oldCpioMagic_append (by omega), if_neg, if_neg,
      if_neg hold, if_pos (by rw [minDetectBytes]; omega)]
    · exact h
    · exact fun hboth => hcpio ⟨by omega, hboth.2⟩
    · exact fun hboth => har ⟨by omega, hboth.2⟩
  · rw [if_neg hlong] at h
    exact absurd h (by simp)

end Iluvatar
