/-
Computations with fuel that end.

A computation ends with a result if it gives that result whenever its fuel is enough.  Said
like this an ending composes: what comes after it may need more fuel than it did.
-/
namespace Sansio

variable {β γ : Type}

/-- With fuel enough the run gives `b`. -/
def Ends (run : Nat → Option β) (b : β) : Prop := ∃ least, ∀ fuel, least ≤ fuel → run fuel = some b

/-- With fuel enough and rounds enough the run gives `b`. -/
def RoundsEnd (run : Nat → Nat → Option β) (b : β) : Prop :=
  ∃ least, ∀ fuel rounds, least ≤ fuel → least ≤ rounds → run fuel rounds = some b

variable {run next : Nat → Option β} {whole : Nat → Option γ} {b : β} {c : γ}

theorem Ends.gives (h : Ends run b) : ∃ fuel, run fuel = some b := by
  obtain ⟨least, hleast⟩ := h
  exact ⟨least, hleast least (Nat.le_refl _)⟩

/-- A run that takes one unit of fuel for itself. -/
theorem Ends.of_succ (h : Ends (fun fuel => run (fuel + 1)) b) : Ends run b := by
  obtain ⟨least, hleast⟩ := h
  refine ⟨least + 1, fun fuel hfuel => ?_⟩
  obtain ⟨fuel, rfl⟩ : ∃ n, fuel = n + 1 := ⟨fuel - 1, by omega⟩
  exact hleast fuel (by omega)

theorem Ends.always (h : ∀ fuel, run fuel = some b) : Ends run b := ⟨0, fun fuel _ => h fuel⟩

/-- What follows a run that ended. -/
theorem Ends.map (h : Ends run b) (hthen : ∀ fuel, run fuel = some b → whole fuel = some c) : Ends whole c := by
  obtain ⟨least, hleast⟩ := h
  exact ⟨least, fun fuel hfuel => hthen fuel (hleast fuel hfuel)⟩

/-- Two runs, one after the other. -/
theorem Ends.andThen {after : Nat → Option γ} (h : Ends run b) (h' : Ends after c)
    (hthen : ∀ fuel, run fuel = some b → whole fuel = after fuel) : Ends whole c := by
  obtain ⟨least, hleast⟩ := h
  obtain ⟨least', hleast'⟩ := h'
  refine ⟨max least least', fun fuel hfuel => ?_⟩
  rw [hthen fuel (hleast fuel (by omega)), hleast' fuel (by omega)]

/-- What comes of two runs that ended. -/
theorem Ends.both {δ : Type} {other : Nat → Option δ} {d : δ} (h : Ends run b) (h' : Ends other d)
    (hthen : ∀ fuel, run fuel = some b → other fuel = some d → whole fuel = some c) : Ends whole c := by
  obtain ⟨least, hleast⟩ := h
  obtain ⟨least', hleast'⟩ := h'
  exact ⟨max least least', fun fuel hfuel => hthen fuel (hleast fuel (by omega)) (hleast' fuel (by omega))⟩

section

variable {rounds more : Nat → Nat → Option γ}

/-- The last round. -/
theorem RoundsEnd.last (h : Ends run b) (hthen : ∀ fuel n, run fuel = some b → rounds fuel (n + 1) = some c) :
    RoundsEnd rounds c := by
  obtain ⟨least, hleast⟩ := h
  refine ⟨least + 1, fun fuel n hfuel hn => ?_⟩
  obtain ⟨n, rfl⟩ : ∃ m, n = m + 1 := ⟨n - 1, by omega⟩
  exact hthen fuel n (hleast fuel (by omega))

/-- One round, and more rounds after it. -/
theorem RoundsEnd.step (h : Ends run b) (h' : RoundsEnd more c)
    (hthen : ∀ fuel n, run fuel = some b → rounds fuel (n + 1) = more fuel n) : RoundsEnd rounds c := by
  obtain ⟨least, hleast⟩ := h
  obtain ⟨least', hleast'⟩ := h'
  refine ⟨max least least' + 1, fun fuel n hfuel hn => ?_⟩
  obtain ⟨n, rfl⟩ : ∃ m, n = m + 1 := ⟨n - 1, by omega⟩
  rw [hthen fuel n (hleast fuel (by omega)), hleast' fuel n (by omega) (by omega)]

/-- A round of two runs, and more rounds after it. -/
theorem RoundsEnd.stepBoth {δ : Type} {other : Nat → Option δ} {d : δ} (h : Ends run b) (hother : Ends other d)
    (h' : RoundsEnd more c)
    (hthen : ∀ fuel n, run fuel = some b → other fuel = some d → rounds fuel (n + 1) = more fuel n) :
    RoundsEnd rounds c := by
  have hpair : Ends (fun fuel => (run fuel).bind fun b => (other fuel).map fun d => (b, d)) (b, d) :=
    h.both hother fun fuel hrun hthere => by rw [hrun, hthere]; rfl
  refine RoundsEnd.step hpair h' fun fuel n hboth => ?_
  obtain ⟨b', hrun, hmap⟩ := Option.bind_eq_some_iff.mp hboth
  obtain ⟨d', hthere, hsame⟩ := Option.map_eq_some_iff.mp hmap
  obtain ⟨rfl, rfl⟩ := Prod.mk.inj hsame
  exact hthen fuel n hrun hthere

/-- Fuel enough for both. -/
theorem RoundsEnd.ends (h : RoundsEnd rounds c) : Ends (fun fuel => rounds fuel fuel) c := by
  obtain ⟨least, hleast⟩ := h
  exact ⟨least, fun fuel hfuel => hleast fuel fuel hfuel hfuel⟩

end

end Sansio
