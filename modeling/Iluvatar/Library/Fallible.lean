/-
Computations that may fail, run one after the other, and refinement between them.

A computation refines another up to a relation of their results where it goes through
whenever the other does; where the other fails it may do anything.
-/

namespace Except

variable {ε α β : Type}

/-- A computation that goes through does so at every step. -/
theorem bind_eq_ok {x : Except ε α} {f : α → Except ε β} {b : β} :
    x >>= f = .ok b ↔ ∃ a, x = .ok a ∧ f a = .ok b := by
  cases x with
  | error e => exact ⟨fun h => absurd h (by simp [bind, Except.bind]), fun ⟨_, h, _⟩ => absurd h (by simp)⟩
  | ok a =>
    constructor
    · intro h
      exact ⟨a, rfl, h⟩
    · rintro ⟨a', ha, hf⟩
      obtain rfl := Except.ok.inj ha
      exact hf

/-- A fault that no step has, the whole has not. -/
theorem bind_ne_error {e : ε} {x : Except ε α} {f : α → Except ε β} (hx : x ≠ .error e)
    (hf : ∀ a, x = .ok a → f a ≠ .error e) : x >>= f ≠ .error e := by
  cases x with
  | error e' =>
    intro h
    obtain rfl := Except.error.inj h
    exact hx rfl
  | ok a => exact hf a rfl

section

variable {α' β' : Type}

/-- `x` goes through wherever `y` does, with a result that `Q` relates to that of `y`. -/
def Refines (Q : α → β → Prop) (x : Except ε α) (y : Except ε β) : Prop :=
  ∀ b, y = .ok b → ∃ a, x = .ok a ∧ Q a b

theorem Refines.ok {Q : α → β → Prop} {a : α} {b : β} (h : Q a b) :
    Refines (ε := ε) Q (.ok a) (.ok b) := by
  intro b' hb
  obtain rfl := Except.ok.inj hb
  exact ⟨a, rfl, h⟩

/-- Nothing is asked where the other fails. -/
theorem Refines.error {Q : α → β → Prop} {x : Except ε α} {e : ε} : Refines Q x (.error e) := by
  intro b hb
  cases hb

theorem Refines.bind {Q : α → β → Prop} {P : α' → β' → Prop} {x : Except ε α} {y : Except ε β}
    {f : α → Except ε α'} {g : β → Except ε β'} (h : Refines Q x y)
    (hf : ∀ a b, Q a b → Refines P (f a) (g b)) : Refines P (x >>= f) (y >>= g) := by
  intro b' hb'
  obtain ⟨b, hy, hg⟩ := bind_eq_ok.mp hb'
  obtain ⟨a, hx, hq⟩ := h b hy
  obtain ⟨a', hfa, hp⟩ := hf a b hq b' hg
  exact ⟨a', bind_eq_ok.mpr ⟨a, hx, hfa⟩, hp⟩

theorem Refines.ite {Q : α → β → Prop} {c c' : Prop} [Decidable c] [Decidable c']
    {x x' : Except ε α} {y y' : Except ε β} (hc : c ↔ c') (h : c' → Refines Q x y)
    (h' : ¬ c' → Refines Q x' y') : Refines Q (if c then x else x') (if c' then y else y') := by
  by_cases hc' : c'
  · rw [if_pos hc', if_pos (hc.mpr hc')]
    exact h hc'
  · rw [if_neg hc', if_neg (fun hc'' => hc' (hc.mp hc''))]
    exact h' hc'

theorem Refines.mono {Q P : α → β → Prop} {x : Except ε α} {y : Except ε β} (h : Refines Q x y)
    (hmono : ∀ a b, Q a b → P a b) : Refines P x y := by
  intro b hb
  obtain ⟨a, hx, hq⟩ := h b hb
  exact ⟨a, hx, hmono a b hq⟩

end

/-- Pairs related part by part. -/
def Both {α β γ δ : Type} (Q : α → β → Prop) (P : γ → δ → Prop) (x : α × γ) (y : β × δ) : Prop :=
  Q x.1 y.1 ∧ P x.2 y.2

end Except
