/-
Conversions of a stream in place, with a look ahead.

A scanner looks at a window of the stream, replaces some of its first symbols, and moves past
them.  What is left at the end is shorter than the window and stays as it is.
-/
import Mathlib.Data.List.Basic

namespace Sansio

variable {σ τ α : Type}

/-- A scanner with states `σ`.  A step is given the window and says what its first symbols
become; it moves by at least one symbol, and within the window. -/
structure Scanner (σ α : Type) where
  width : Nat
  step : σ → List α → List α × σ
  moves : ∀ s w, w.length = width → 0 < (step s w).1.length ∧ (step s w).1.length ≤ width

/-- How far a scanner has come: what is converted, and what it could not see enough of. -/
structure Scanned (σ α : Type) where
  done : List α
  rest : List α
  state : σ

namespace Scanner

/-- Step after step, while there is a window to look at. -/
def scan (S : Scanner σ α) : Nat → σ → List α → Scanned σ α
  | 0, s, data => { done := [], rest := data, state := s }
  | fuel + 1, s, data =>
    if data.length < S.width then { done := [], rest := data, state := s }
    else
      let (o, s') := S.step s (data.take S.width)
      let r := S.scan fuel s' (data.drop o.length)
      { r with done := o ++ r.done }

/-- Every step moves, so the scan of some data needs no more steps than it has symbols. -/
def run (S : Scanner σ α) (s : σ) (data : List α) : Scanned σ α := S.scan data.length s data

/-- The data converted, and the end of it that cannot be. -/
def convert (S : Scanner σ α) (s : σ) (data : List α) : List α := (S.run s data).done ++ (S.run s data).rest

variable (S : Scanner σ α) {s : σ} {data : List α}

theorem width_pos (s : σ) : 0 < S.width := by
  rcases Nat.eq_zero_or_pos S.width with hzero | hpos
  · have hmoves := S.moves s [] hzero.symm
    omega
  · exact hpos

theorem moves_take (hlong : S.width ≤ data.length) :
    0 < (S.step s (data.take S.width)).1.length ∧ (S.step s (data.take S.width)).1.length ≤ S.width :=
  S.moves s _ (List.length_take_of_le hlong)

theorem scan_fuel : ∀ {fuel : Nat} {s : σ} {data : List α}, data.length ≤ fuel →
    S.scan fuel s data = S.run s data := by
  have hall : ∀ n fuel (s : σ) (data : List α), data.length ≤ n → data.length ≤ fuel →
      S.scan fuel s data = S.scan n s data := by
    intro n
    induction n with
    | zero =>
      intro fuel s data hn _
      obtain rfl := List.eq_nil_of_length_eq_zero (Nat.le_zero.mp hn)
      cases fuel with
      | zero => rfl
      | succ fuel => exact if_pos (S.width_pos s)
    | succ n ih =>
      intro fuel s data hn hfuel
      by_cases hshort : data.length < S.width
      · cases fuel with
        | zero => exact (if_pos hshort).symm
        | succ fuel => exact (if_pos hshort).trans (if_pos hshort).symm
      · have hmoves := S.moves_take (s := s) (Nat.not_lt.mp hshort)
        have hwidth := S.width_pos s
        cases fuel with
        | zero => omega
        | succ fuel =>
          have hdrop : (data.drop (S.step s (data.take S.width)).1.length).length ≤ n := by
            rw [List.length_drop]
            omega
          have hsame := ih fuel (S.step s (data.take S.width)).2 _ hdrop (by
            rw [List.length_drop]
            omega)
          rw [scan, scan, if_neg hshort, if_neg hshort]
          simp only
          rw [hsame]
  intro fuel s data h
  exact hall _ _ _ _ (Nat.le_refl _) h

theorem run_short (hshort : data.length < S.width) : S.run s data = { done := [], rest := data, state := s } := by
  rw [← S.scan_fuel (Nat.le_succ _)]
  exact if_pos hshort

theorem run_step (hlong : S.width ≤ data.length) : S.run s data =
    { done := (S.step s (data.take S.width)).1 ++
        (S.run (S.step s (data.take S.width)).2 (data.drop (S.step s (data.take S.width)).1.length)).done
      rest := (S.run (S.step s (data.take S.width)).2 (data.drop (S.step s (data.take S.width)).1.length)).rest
      state :=
        (S.run (S.step s (data.take S.width)).2 (data.drop (S.step s (data.take S.width)).1.length)).state } := by
  rw [← S.scan_fuel (Nat.le_succ data.length), scan, if_neg (Nat.not_lt.mpr hlong)]
  simp only
  rw [S.scan_fuel]
  rw [List.length_drop]
  exact Nat.sub_le _ _

/-- The steps of a scan, by the length of what is left of the data. -/
theorem scan_induction {P : σ → List α → Prop} (short : ∀ s data, data.length < S.width → P s data)
    (step : ∀ s data, S.width ≤ data.length →
      P (S.step s (data.take S.width)).2 (data.drop (S.step s (data.take S.width)).1.length) → P s data)
    (s : σ) (data : List α) : P s data := by
  have hall : ∀ n s (data : List α), data.length ≤ n → P s data := by
    intro n
    induction n with
    | zero =>
      intro s data hn
      refine short s data ?_
      have := S.width_pos s
      omega
    | succ n ih =>
      intro s data hn
      by_cases hshort : data.length < S.width
      · exact short s data hshort
      · have hlong := Nat.not_lt.mp hshort
        refine step s data hlong (ih _ _ ?_)
        have hmoves := S.moves_take (s := s) hlong
        rw [List.length_drop]
        omega
  exact hall _ s data (Nat.le_refl _)

theorem run_length (s : σ) (data : List α) :
    (S.run s data).done.length + (S.run s data).rest.length = data.length := by
  induction s, data using S.scan_induction with
  | short s data hshort =>
    rw [S.run_short hshort]
    exact Nat.zero_add _
  | step s data hlong ih =>
    have hmoves := S.moves_take (s := s) hlong
    rw [List.length_drop] at ih
    rw [S.run_step hlong]
    simp only [List.length_append]
    omega

theorem convert_length (s : σ) (data : List α) : (S.convert s data).length = data.length := by
  rw [convert, List.length_append, S.run_length]

theorem run_rest (s : σ) (data : List α) :
    (S.run s data).rest = data.drop (S.run s data).done.length ∧ (S.run s data).rest.length < S.width := by
  induction s, data using S.scan_induction with
  | short s data hshort =>
    rw [S.run_short hshort]
    exact ⟨rfl, hshort⟩
  | step s data hlong ih =>
    rw [S.run_step hlong]
    simp only [List.length_append]
    rw [← List.drop_drop]
    exact ih

theorem convert_short (hshort : data.length < S.width) : S.convert s data = data := by
  rw [convert, S.run_short hshort]
  rfl

theorem convert_step (hlong : S.width ≤ data.length) : S.convert s data =
    (S.step s (data.take S.width)).1 ++
      S.convert (S.step s (data.take S.width)).2 (data.drop (S.step s (data.take S.width)).1.length) := by
  rw [convert, S.run_step hlong, List.append_assoc]
  rfl

/-- Data that comes in two parts: the scan of the first, then of its rest and the second. -/
theorem run_append (s : σ) (a b : List α) : S.run s (a ++ b) =
    { done := (S.run s a).done ++ (S.run (S.run s a).state ((S.run s a).rest ++ b)).done
      rest := (S.run (S.run s a).state ((S.run s a).rest ++ b)).rest
      state := (S.run (S.run s a).state ((S.run s a).rest ++ b)).state } := by
  induction s, a using S.scan_induction with
  | short s a hshort => rw [S.run_short hshort, List.nil_append]
  | step s a hlong ih =>
    have hmoves := S.moves_take (s := s) hlong
    have htake : (a ++ b).take S.width = a.take S.width := List.take_append_of_le_length hlong
    have hwhole : S.width ≤ (a ++ b).length := by
      rw [List.length_append]
      omega
    have hdrop : (a ++ b).drop (S.step s (a.take S.width)).1.length =
        a.drop (S.step s (a.take S.width)).1.length ++ b := List.drop_append_of_le_length (by omega)
    rw [S.run_step hwhole, S.run_step hlong, htake, hdrop, ih]
    simp only [List.append_assoc]

theorem convert_append (s : σ) (a b : List α) : S.convert s (a ++ b) =
    (S.run s a).done ++ S.convert (S.run s a).state ((S.run s a).rest ++ b) := by
  rw [convert, S.run_append, List.append_assoc]
  rfl

/-- A scanner that undoes another.  `C` holds of the states and the data met on the way, and
`V` says what a window may look for in data that is converted further on. -/
theorem convert_inverse (T : Scanner σ α) (hwidth : T.width = S.width) {C : σ → List α → Prop}
    {V : σ → List α → List α → Prop}
    (short : ∀ s data, C s data → data.length < S.width → V s data data)
    (step : ∀ s data, C s data → S.width ≤ data.length →
      C (S.step s (data.take S.width)).2 (data.drop (S.step s (data.take S.width)).1.length) ∧
      ∀ more, more.length = data.length - (S.step s (data.take S.width)).1.length →
        V (S.step s (data.take S.width)).2 (data.drop (S.step s (data.take S.width)).1.length) more →
        V s data ((S.step s (data.take S.width)).1 ++ more) ∧
        T.step s (((S.step s (data.take S.width)).1 ++ more).take S.width) =
          (data.take (S.step s (data.take S.width)).1.length, (S.step s (data.take S.width)).2))
    (s : σ) (data : List α) : C s data →
      V s data (S.convert s data) ∧ T.convert s (S.convert s data) = data := by
  induction s, data using S.scan_induction with
  | short s data hshort =>
    intro hclear
    rw [S.convert_short hshort]
    exact ⟨short s data hclear hshort, T.convert_short (hwidth.symm ▸ hshort)⟩
  | step s data hlong ih =>
    intro hclear
    obtain ⟨hclear', hmore⟩ := step s data hclear hlong
    obtain ⟨hshows, hback⟩ := ih hclear'
    have hmoves := S.moves_take (s := s) hlong
    have hlength : (S.convert (S.step s (data.take S.width)).2
        (data.drop (S.step s (data.take S.width)).1.length)).length =
        data.length - (S.step s (data.take S.width)).1.length := by
      rw [S.convert_length, List.length_drop]
    obtain ⟨hshows', hundone⟩ := hmore _ hlength hshows
    rw [S.convert_step hlong]
    refine ⟨hshows', ?_⟩
    have hlong' : T.width ≤ ((S.step s (data.take S.width)).1 ++ S.convert (S.step s (data.take S.width)).2
        (data.drop (S.step s (data.take S.width)).1.length)).length := by
      rw [List.length_append, hlength, hwidth]
      omega
    have htaken : (data.take (S.step s (data.take S.width)).1.length).length =
        (S.step s (data.take S.width)).1.length := List.length_take_of_le (by omega)
    rw [T.convert_step hlong', hwidth, hundone]
    simp only
    rw [htaken, List.drop_left, hback, List.take_append_drop]

end Scanner
end Sansio
