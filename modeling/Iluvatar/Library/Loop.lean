/-
Loops that repeat a step until it reports, and runs of a partial event system.

A sans-I/O component is driven by an outside loop: the caller issues an event,
the component moves to a new state, and inside one event the component may loop
over silent steps until it has something to report.  Both loops are stated here
once, over arbitrary state, report and event types, with the rule that carries an
invariant through each of them and the rule that bounds the inner one.
-/

namespace Sansio

variable {σ ρ ε : Type}

/-- Repeat `f` until it reports, at most `fuel` times. -/
def untilSome (f : σ → Option ρ × σ) : Nat → σ → Option (ρ × σ)
  | 0, _ => none
  | fuel + 1, s =>
    match f s with
    | (some r, s') => some (r, s')
    | (none, s') => untilSome f fuel s'

/-- What every silent step preserves holds where the reporting step starts. -/
theorem untilSome_rule {f : σ → Option ρ × σ} {I : σ → Prop} {Q : ρ → σ → Prop}
    (silent : ∀ s s', I s → f s = (none, s') → I s')
    (report : ∀ s r s', I s → f s = (some r, s') → Q r s') :
    ∀ fuel s r s', I s → untilSome f fuel s = some (r, s') → Q r s' := by
  intro fuel
  induction fuel with
  | zero => intro s r s' _ h; simp [untilSome] at h
  | succ fuel ih =>
    intro s r s' hI h
    rw [untilSome] at h
    match hf : f s with
    | (some r₁, s₁) =>
      rw [hf] at h
      obtain ⟨rfl, rfl⟩ : r₁ = r ∧ s₁ = s' := by simpa using h
      exact report s r₁ s₁ hI hf
    | (none, s₁) =>
      rw [hf] at h
      exact ih s₁ r s' (silent s s₁ hI hf) h

/-- A loop whose silent steps decrease a measure reports within that many steps. -/
theorem untilSome_reports {f : σ → Option ρ × σ} {I : σ → Prop} (μ : σ → Nat)
    (silent : ∀ s s', I s → f s = (none, s') → I s' ∧ μ s' < μ s) :
    ∀ fuel s, I s → μ s < fuel → ∃ r s', untilSome f fuel s = some (r, s') := by
  intro fuel
  induction fuel with
  | zero => intro s _ h; omega
  | succ fuel ih =>
    intro s hI h
    rw [untilSome]
    match hf : f s with
    | (some r, s') => exact ⟨r, s', rfl⟩
    | (none, s') =>
      obtain ⟨hI', hμ⟩ := silent s s' hI hf
      exact ih s' hI' (by omega)

/-- More fuel does not change a report. -/
theorem untilSome_mono {f : σ → Option ρ × σ} {r : ρ} {s' : σ} :
    ∀ {fuel more : Nat} {s : σ}, fuel ≤ more →
      untilSome f fuel s = some (r, s') → untilSome f more s = some (r, s') := by
  intro fuel
  induction fuel with
  | zero => intro more s _ h; simp [untilSome] at h
  | succ fuel ih =>
    intro more s hle h
    obtain ⟨more, rfl⟩ : ∃ m, more = m + 1 := ⟨more - 1, by omega⟩
    rw [untilSome] at h ⊢
    match hf : f s with
    | (some r₁, s₁) => rw [hf] at h; exact h
    | (none, s₁) => rw [hf] at h; exact ih (by omega) h

/-- What every event preserves holds after every run of events. -/
theorem foldlM_invariant {f : σ → ε → Option σ} {I : σ → Prop}
    (step : ∀ s e s', I s → f s e = some s' → I s') :
    ∀ (es : List ε) s s', I s → es.foldlM f s = some s' → I s' := by
  intro es
  induction es with
  | nil =>
    intro s s' hI h
    obtain rfl : s = s' := by simpa using h
    exact hI
  | cons e es ih =>
    intro s s' hI h
    rw [List.foldlM_cons] at h
    cases hf : f s e with
    | none => simp [hf] at h
    | some s₁ =>
      rw [hf] at h
      exact ih s₁ s' (step s e s₁ hI hf) h

end Sansio
