/-
Machines that read a stream in indivisible steps.

A step is given all the input there is and either asks for more, halts with a verdict,
or moves on, leaving the input it did not take and emitting output.  What makes a
machine independent of how its input arrives is one law: a step that did not ask for
more takes the same decision when more input follows.  Steps that take nothing must
descend in a well-founded order, so every run comes to a stop.
-/

namespace Sansio

/-- What one step of a machine comes to. -/
inductive Next (μ τ α β : Type) where
  | need
  | halt (t : τ)
  | move (m : μ) (rest : List α) (out : List β)

namespace Next

variable {μ τ α β : Type}

/-- The same decision with `more` after the input. -/
def append (more : List α) : Next μ τ α β → Next μ τ α β
  | .need => .need
  | .halt t => .halt t
  | .move m rest out => .move m (rest ++ more) out

end Next

/-- A machine with states `μ`, verdicts `τ`, input symbols `α` and output symbols `β`.
`Good` are the states it is run in, and `Less` is the order its idle steps descend. -/
structure Machine (μ τ α β : Type) where
  step : μ → List α → Next μ τ α β
  Good : μ → Prop
  Less : μ → μ → Prop
  wf : WellFounded Less
  append : ∀ m input more, step m input ≠ .need →
    step m (input ++ more) = (step m input).append more
  suffix : ∀ m input m' rest out, Good m → step m input = .move m' rest out → rest <:+ input
  good : ∀ m input m' rest out, Good m → step m input = .move m' rest out → Good m'
  descends : ∀ m input m' rest out, Good m → step m input = .move m' rest out →
    rest.length < input.length ∨ Less m' m

variable {μ τ α β : Type}

namespace Machine

/-- Some number of steps, the output they emit, and what they leave of the input. -/
inductive Runs (M : Machine μ τ α β) : μ → List α → List β → μ → List α → Prop where
  | refl (m : μ) (input : List α) : Runs M m input [] m input
  | step {m m₁ m₂ : μ} {input input₁ input₂ : List α} {out out' : List β} :
      M.step m input = .move m₁ input₁ out → Runs M m₁ input₁ out' m₂ input₂ →
      Runs M m input (out ++ out') m₂ input₂

variable {M : Machine μ τ α β} {m m₁ m₂ m₃ : μ} {input input₁ input₂ input₃ : List α}
  {out out₁ out₂ : List β}

namespace Runs

theorem single (h : M.step m input = .move m₁ input₁ out) : M.Runs m input out m₁ input₁ := by
  have hrun := Runs.step h (Runs.refl m₁ input₁)
  rwa [List.append_nil] at hrun

theorem trans (h : M.Runs m₁ input₁ out₁ m₂ input₂) (h' : M.Runs m₂ input₂ out₂ m₃ input₃) :
    M.Runs m₁ input₁ (out₁ ++ out₂) m₃ input₃ := by
  induction h with
  | refl m input => exact h'
  | step hstep _ ih =>
    rw [List.append_assoc]
    exact Runs.step hstep (ih h')

theorem good (h : M.Runs m₁ input₁ out m₂ input₂) (hgood : M.Good m₁) : M.Good m₂ := by
  induction h with
  | refl m input => exact hgood
  | step hstep _ ih => exact ih (M.good _ _ _ _ _ hgood hstep)

theorem suffix (h : M.Runs m₁ input₁ out m₂ input₂) (hgood : M.Good m₁) : input₂ <:+ input₁ := by
  induction h with
  | refl m input => exact List.suffix_refl _
  | step hstep _ ih =>
    exact (ih (M.good _ _ _ _ _ hgood hstep)).trans (M.suffix _ _ _ _ _ hgood hstep)

/-- A run goes the same way when more input follows. -/
theorem append (h : M.Runs m₁ input₁ out m₂ input₂) (more : List α) :
    M.Runs m₁ (input₁ ++ more) out m₂ (input₂ ++ more) := by
  induction h with
  | refl m input => exact Runs.refl _ _
  | step hstep _ ih =>
    refine Runs.step ?_ ih
    rw [M.append _ _ more (by simp [hstep]), hstep]
    rfl

end Runs

/-- No step moves on from here. -/
def Stops (M : Machine μ τ α β) (m : μ) (input : List α) : Prop :=
  M.step m input = .need ∨ ∃ t, M.step m input = .halt t

theorem Stops.not_move (h : M.Stops m input) : M.step m input ≠ .move m₁ input₁ out := by
  rcases h with h | ⟨t, h⟩ <;> simp [h]

/-- Of two runs from one place, one continues the other. -/
theorem Runs.compare (h₁ : M.Runs m input out₁ m₁ input₁) :
    ∀ {out₂ m₂ input₂}, M.Runs m input out₂ m₂ input₂ →
      (∃ out, M.Runs m₁ input₁ out m₂ input₂ ∧ out₂ = out₁ ++ out) ∨
      (∃ out, M.Runs m₂ input₂ out m₁ input₁ ∧ out₁ = out₂ ++ out) := by
  induction h₁ with
  | refl m input =>
    intro out₂ m₂ input₂ h₂
    exact .inl ⟨out₂, h₂, rfl⟩
  | step hstep hrun ih =>
    intro out₂ m₂ input₂ h₂
    cases h₂ with
    | refl => exact .inr ⟨_, Runs.step hstep hrun, rfl⟩
    | step hstep' hrun' =>
      have hsame := hstep.symm.trans hstep'
      injection hsame with hm hinput hout
      subst hm hinput hout
      rcases ih hrun' with ⟨out, hcont, hout⟩ | ⟨out, hcont, hout⟩
      · exact .inl ⟨out, hcont, by rw [hout, List.append_assoc]⟩
      · exact .inr ⟨out, hcont, by rw [hout, List.append_assoc]⟩

/-- A stop is reached from everywhere on the way to it. -/
theorem Runs.to_stop (h : M.Runs m input out₁ m₁ input₁)
    (hstop : M.Runs m input out₂ m₂ input₂) (hstops : M.Stops m₂ input₂) :
    ∃ out, M.Runs m₁ input₁ out m₂ input₂ ∧ out₂ = out₁ ++ out := by
  rcases h.compare hstop with hcont | ⟨out, hcont, hout⟩
  · exact hcont
  · cases hcont with
    | refl => exact ⟨[], Runs.refl _ _, by rw [hout, List.append_nil, List.append_nil]⟩
    | step hstep _ => exact absurd hstep hstops.not_move

/-- Every run from a good state comes to a stop. -/
theorem exists_stop (M : Machine μ τ α β) :
    ∀ (m : μ) (input : List α), M.Good m →
      ∃ out m' rest, M.Runs m input out m' rest ∧ M.Stops m' rest := by
  have hall : ∀ n m, ∀ input : List α, input.length = n → M.Good m →
      ∃ out m' rest, M.Runs m input out m' rest ∧ M.Stops m' rest := by
    intro n
    induction n using Nat.strongRecOn with
    | ind n ihn =>
      intro m
      induction m using M.wf.induction with
      | _ m ihm =>
        intro input hlen hgood
        match hstep : M.step m input with
        | .need => exact ⟨[], m, input, Runs.refl _ _, .inl hstep⟩
        | .halt t => exact ⟨[], m, input, Runs.refl _ _, .inr ⟨t, hstep⟩⟩
        | .move m₁ input₁ out =>
          have hgood₁ := M.good _ _ _ _ _ hgood hstep
          have hle := (M.suffix _ _ _ _ _ hgood hstep).length_le
          by_cases hless : input₁.length < n
          · obtain ⟨out', m', rest, hrun, hstops⟩ := ihn _ hless m₁ input₁ rfl hgood₁
            exact ⟨_, m', rest, Runs.step hstep hrun, hstops⟩
          · have hidle := (M.descends _ _ _ _ _ hgood hstep).resolve_left (by omega)
            obtain ⟨out', m', rest, hrun, hstops⟩ := ihm m₁ hidle input₁ (by omega) hgood₁
            exact ⟨_, m', rest, Runs.step hstep hrun, hstops⟩
  exact fun m input => hall _ m input rfl

/-- A run that halts goes the same way on any longer input. -/
theorem Runs.halt_append {t : τ} (h : M.Runs m input out m₁ input₁)
    (hhalt : M.step m₁ input₁ = .halt t) (more : List α) :
    M.Runs m (input ++ more) out m₁ (input₁ ++ more) ∧
      M.step m₁ (input₁ ++ more) = .halt t := by
  refine ⟨h.append more, ?_⟩
  rw [M.append _ _ more (by simp [hhalt]), hhalt]
  rfl

end Machine
end Sansio
