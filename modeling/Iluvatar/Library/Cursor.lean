/-
A cursor over what is left to read.

This is how a reader is meant to behave, whatever it does underneath: a read takes some of
what is left, or fails and takes nothing.  At the end it says so, or it reports once what
the source lacks, and from then on the cursor is over.
-/
import Mathlib.Data.List.Basic

namespace Sansio

variable {α ε γ : Type}

structure Cursor (α ε : Type) where
  left : List α
  missing : Option ε
  spent : Bool

namespace Cursor

/-- A read with room for `room`; `fails` says how reads may fail. -/
inductive Reads (fails : ε → Prop) (room : Nat) : Cursor α ε → Except ε (List α) → Cursor α ε → Prop
  | idle {c} (h : c.spent = true ∨ room = 0) : Reads fails room c (.ok []) c
  | failed {c e} (h : fails e) : Reads fails room c (.error e) c
  | taken {out rest missing} (some : out ≠ []) (fits : out.length ≤ room) :
      Reads fails room ⟨out ++ rest, missing, false⟩ (.ok out) ⟨rest, missing, false⟩
  | ended : Reads fails room ⟨[], none, false⟩ (.ok []) ⟨[], none, true⟩
  | lacking {e} : Reads fails room ⟨[], some e, false⟩ (.error e) ⟨[], some e, true⟩

/-- Read after read, each with room of its own. -/
inductive Run (fails : ε → Prop) : Cursor α ε → List Nat → List (Except ε (List α)) → Cursor α ε → Prop
  | nil {c} : Run fails c [] [] c
  | cons {c c' c'' room rooms result results} (head : Reads fails room c result c')
      (tail : Run fails c' rooms results c'') : Run fails c (room :: rooms) (result :: results) c''

/-- What a read took. -/
def output : Except ε (List α) → List α
  | .ok out => out
  | .error _ => []

theorem Reads.left {fails : ε → Prop} {room : Nat} {c c' : Cursor α ε} {result : Except ε (List α)}
    (h : Reads fails room c result c') : output result ++ c'.left = c.left := by
  cases h <;> rfl

/-- How a read fails may be told apart further. -/
theorem Reads.mono {fails fails' : ε → Prop} {room : Nat} {c c' : Cursor α ε} {result : Except ε (List α)}
    (h : Reads fails room c result c') (hfails : ∀ e, result = .error e → fails e → fails' e) :
    Reads fails' room c result c' := by
  cases h with
  | idle h => exact .idle h
  | failed h => exact .failed (hfails _ rfl h)
  | taken some fits => exact .taken some fits
  | ended => exact .ended
  | lacking => exact .lacking

/-- Nothing is lost between the reads and nothing read twice. -/
theorem Run.left {fails : ε → Prop} {c c' : Cursor α ε} {rooms : List Nat} {results : List (Except ε (List α))}
    (h : Run fails c rooms results c') : results.flatMap output ++ c'.left = c.left := by
  induction h with
  | nil => rfl
  | cons head tail ih => rw [List.flatMap_cons, List.append_assoc, ih, head.left]

/-- All that is left, or what the source lacks. -/
def rest (c : Cursor α ε) : Except ε (List α) :=
  match c.missing with
  | none => .ok c.left
  | some e => .error e

/-- Read until nothing comes, and again after a failure that `again` says is to be ignored;
the `k`-th last read has room for `rooms k` and one more. -/
def readToEnd (read : γ → Nat → Option (Except ε (List α) × γ)) (again : ε → Bool) (rooms : Nat → Nat) :
    Nat → γ → List α → Option (Except ε (List α) × γ)
  | 0, _, _ => none
  | fuel + 1, s, got =>
    match read s (rooms fuel + 1) with
    | none => none
    | some (.ok [], s) => some (.ok got, s)
    | some (.ok (a :: out), s) => readToEnd read again rooms fuel s (got ++ a :: out)
    | some (.error e, s) => if again e then readToEnd read again rooms fuel s got else some (.error e, s)

/-- How a reader follows a cursor: a read is one of the cursor's, or it fails for good.  What it
fails with for now costs it some of its patience.  `fails` says how a read may fail and where that
leaves the reader. -/
structure Followed (read : γ → Nat → Option (Except ε (List α) × γ)) (again : ε → Bool) (fails : γ → ε → Prop)
    (patience : γ → Nat) (R : γ → Cursor α ε → Prop) : Prop where
  reads : ∀ s c room, R s c → 0 < room → ∃ result s', read s room = some (result, s') ∧
    ((∃ e, result = .error e ∧ fails s' e ∧ again e = false) ∨
      ∃ c', Reads (fails s') room c result c' ∧ R s' c' ∧ patience s' ≤ patience s ∧
        ∀ e, result = .error e → again e = true → patience s' < patience s)

/-- Reading to the end gives all that is left, or fails. -/
theorem Followed.readToEnd {read : γ → Nat → Option (Except ε (List α) × γ)} {again : ε → Bool} {fails : γ → ε → Prop}
    {patience : γ → Nat} {R : γ → Cursor α ε → Prop} (h : Followed read again fails patience R) (rooms : Nat → Nat) :
    ∀ (fuel : Nat) (s : γ) (c : Cursor α ε) (got : List α), R s c → c.spent = false →
      (∀ e, c.missing = some e → again e = false) → c.left.length + patience s < fuel →
      ∃ result s', Cursor.readToEnd read again rooms fuel s got = some (result, s') ∧
        (result = c.rest.map (got ++ ·) ∨ ∃ e, fails s' e ∧ again e = false ∧ result = .error e) := by
  intro fuel
  induction fuel with
  | zero => intro s c got _ _ _ hfuel; exact absurd hfuel (Nat.not_lt_zero _)
  | succ fuel ih =>
    intro s c got hR hgoing hlacks hfuel
    obtain ⟨result, s', hread, hcase⟩ := h.reads s c (rooms fuel + 1) hR (Nat.succ_pos _)
    rw [Cursor.readToEnd, hread]
    rcases hcase with ⟨e, rfl, hfails, hagain⟩ | ⟨c', hreads, hR', hpatience, hless⟩
    · exact ⟨.error e, s', by simp [hagain], .inr ⟨e, hfails, hagain, rfl⟩⟩
    · cases hreads with
      | idle hidle =>
        rcases hidle with hover | hroom
        · rw [hgoing] at hover
          cases hover
        · cases hroom
      | @failed _ e hfails =>
        cases hagain : again e with
        | true =>
          have hless := hless e rfl hagain
          obtain ⟨result, s'', hrest, hresult⟩ := ih s' c got hR' hgoing hlacks (by omega)
          exact ⟨result, s'', by simpa [hagain] using hrest, hresult⟩
        | false => exact ⟨.error e, s', by simp [hagain], .inr ⟨e, hfails, hagain, rfl⟩⟩
      | @taken out rest missing some fits =>
        cases out with
        | nil => exact absurd rfl some
        | cons a out =>
          rw [List.length_append, List.length_cons] at hfuel
          obtain ⟨result, s'', hrest, hresult⟩ := ih s' ⟨rest, missing, false⟩ (got ++ a :: out) hR' rfl hlacks
            (by simp only; omega)
          refine ⟨result, s'', hrest, ?_⟩
          rcases hresult with hall | hfailed
          · left
            rw [hall]
            cases missing <;> simp [Cursor.rest, Except.map]
          · exact .inr hfailed
      | ended => exact ⟨.ok got, s', rfl, .inl (by simp [Cursor.rest, Except.map])⟩
      | @lacking e =>
        have hnot := hlacks e rfl
        exact ⟨.error e, s', by simp [hnot], .inl rfl⟩

end Cursor
end Sansio
