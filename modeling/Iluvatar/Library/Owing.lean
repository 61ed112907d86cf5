/-
Decoders that owe an output.

At any time it is fixed what such a decoder will still write, of what it holds and of the input to
come.  Each call writes the first of it; the end is told when all is written.
-/
import Iluvatar.Library.Feeding

namespace Sansio

variable {σ ε α β : Type}

/-- What one call answers when `out` is owed for the state and for the input `rest` to come, of
which it is given some.  `flag` counts what a state has left to do besides. -/
structure Pays (I : σ → List α → List β → Prop) (flag : σ → Nat) (s : σ) (rest input : List α) (out : List β)
    (r : Reply β) (s' : σ) (out' : List β) : Prop where
  consumed : r.consumed ≤ input.length
  paid : out = r.produced ++ out'
  ended : r.ended = true → out' = [] ∧ rest.drop r.consumed = []
  still : r.ended = false → I s' (rest.drop r.consumed) out'
  flag_le : flag s' ≤ flag s
  progress : r.ended = false → 0 < r.consumed ∨ 0 < r.produced.length ∨ flag s' < flag s

/-- Every call pays.  A call is given no input only when none is left. -/
def Owes (call : Call σ ε α β) (I : σ → List α → List β → Prop) (flag : σ → Nat) : Prop :=
  ∀ s rest input out room, I s rest out → input <+: rest → (input = [] → rest = []) → 0 < room →
    ∃ r s' out', call s input room = .ok (r, s') ∧ Pays I flag s rest input out r s' out'

/-- Where a feeding stands: what is written and what is owed are the whole. -/
structure Owing (I : σ → List α → List β → Prop) (packed : List α) (whole : List β) (g : Going σ β) : Prop where
  within : g.consumed ≤ packed.length
  owed : ∃ out, I g.state (packed.drop g.consumed) out ∧ whole = g.output ++ out

/-- What is left to do: input to take, output to write, and what the state has besides. -/
def toDo (flag : σ → Nat) (packed : List α) (whole : List β) (g : Going σ β) : Nat :=
  (packed.length - g.consumed) + (whole.length - g.output.length) + flag g.state

variable {call : Call σ ε α β} {I : σ → List α → List β → Prop} {flag : σ → Nat} {packed : List α} {whole : List β}
  {g : Going σ β}

theorem Owes.turn (hcall : Owes call I flag) (h : Owing I packed whole g) (cut : Nat × Nat) :
    turn call packed cut g = .ended { outcome := none, consumed := packed.length, output := whole } ∨
      ∃ g', turn call packed cut g = .going g' ∧ Owing I packed whole g' ∧
        toDo flag packed whole g' < toDo flag packed whole g := by
  obtain ⟨out, hI, howed⟩ := h.owed
  have hwithin := h.within
  have hall : (packed.drop g.consumed).take (cut.1 + 1) = [] → packed.drop g.consumed = [] := by
    intro hnil
    rcases List.take_eq_nil_iff.mp hnil with hzero | hend
    · omega
    · exact hend
  obtain ⟨r, s', out', hanswer, hpays⟩ := hcall _ _ _ _ (cut.2 + 1) hI
    (List.take_prefix (cut.1 + 1) (packed.drop g.consumed)) hall (Nat.succ_pos _)
  have hconsumed := hpays.consumed
  rw [List.length_take, List.length_drop] at hconsumed
  rw [hpays.paid, ← List.append_assoc] at howed
  have hlength := congrArg List.length howed
  rw [List.length_append, List.length_append] at hlength
  rw [Sansio.turn, hanswer]
  cases hended : r.ended with
  | true =>
    left
    obtain ⟨hnothing, hlast⟩ := hpays.ended hended
    rw [List.drop_drop] at hlast
    have hend := List.drop_eq_nil_iff.mp hlast
    rw [hnothing, List.append_nil] at howed
    simp only [hended, if_true]
    rw [← howed, show g.consumed + r.consumed = packed.length by omega]
  | false =>
    right
    have hstill := hpays.still hended
    rw [List.drop_drop] at hstill
    simp only [hended, Bool.false_eq_true, if_false]
    refine ⟨_, rfl, ⟨by show g.consumed + r.consumed ≤ packed.length; omega, out', hstill, howed⟩, ?_⟩
    have hflag := hpays.flag_le
    unfold toDo
    simp only [List.length_append]
    rcases hpays.progress hended with hprogress | hprogress | hprogress
    · omega
    · omega
    · omega

/-- A feeding of such a decoder ends with the whole output. -/
theorem Owes.ends (hcall : Owes call I flag) (h : Owing I packed whole g) (cuts : Nat → Nat × Nat) :
    ∃ n, feed call packed n cuts g = .ended { outcome := none, consumed := packed.length, output := whole } := by
  obtain ⟨n, e, hfeed, he⟩ := ends_of_turns
    (I := fun k g => k = toDo flag packed whole g ∧ Owing I packed whole g)
    (Q := fun e => e = { outcome := none, consumed := packed.length, output := whole })
    (by
      rintro k g cut ⟨rfl, hinv⟩
      rcases hcall.turn hinv cut with hended | ⟨g', hgoing, hinv', hless⟩
      · exact .inl ⟨_, hended, rfl⟩
      · exact .inr ⟨g', _, hgoing, ⟨rfl, hinv'⟩, hless⟩)
    _ g cuts ⟨rfl, h⟩
  rw [he] at hfeed
  exact ⟨n, hfeed⟩

/-- What has been fed so far and what is owed stay the whole. -/
theorem Owes.going (hcall : Owes call I flag) (n : Nat) : ∀ {g g' : Going σ β} {cuts : Nat → Nat × Nat},
    Owing I packed whole g → feed call packed n cuts g = .going g' → Owing I packed whole g' := by
  induction n with
  | zero =>
    intro g g' cuts h hfeed
    injection hfeed with hfeed
    exact hfeed ▸ h
  | succ n ih =>
    intro g g' cuts h hfeed
    rw [feed] at hfeed
    rcases hcall.turn h (cuts 0) with hended | ⟨g₁, hgoing, hinv, _⟩
    · rw [hended] at hfeed
      cases hfeed
    · rw [hgoing] at hfeed
      exact ih hinv hfeed

end Sansio
