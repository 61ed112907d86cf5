/-
Resumable decoders, and why the way a stream is cut does not matter to them.

A decoder is called with a slice of what is left of a stream and some room for output.
It resumes a machine when each of its states stands for a state of the machine together
with the input it holds back and the output it owes, and every call does some of the
machine's steps.  The end of a feeding is then decided by the machine alone.
-/
import Iluvatar.Library.Machine

namespace Sansio

variable {σ μ τ ε α β : Type}

/-- One answer of a decoder. -/
structure Reply (β : Type) where
  consumed : Nat
  produced : List β
  ended : Bool

/-- A decoder, called with a slice and the room for output. -/
abbrev Call (σ ε α β : Type) := σ → List α → Nat → Except ε (Reply β × σ)

/-- A feeding under way. -/
structure Going (σ β : Type) where
  state : σ
  consumed : Nat
  output : List β

/-- How a feeding ended: `none` for the reported end of the stream. -/
structure Ending (ε β : Type) where
  outcome : Option ε
  consumed : Nat
  output : List β

inductive Feed (σ ε β : Type) where
  | going (g : Going σ β)
  | ended (e : Ending ε β)

/-- One call, with `cut.1 + 1` symbols of what is left, all of it where there is less,
and room for `cut.2 + 1`. -/
def turn (call : Call σ ε α β) (packed : List α) (cut : Nat × Nat) (g : Going σ β) : Feed σ ε β :=
  match call g.state ((packed.drop g.consumed).take (cut.1 + 1)) (cut.2 + 1) with
  | .error e => .ended { outcome := some e, consumed := g.consumed, output := g.output }
  | .ok (r, s) =>
    if r.ended then
      .ended { outcome := none, consumed := g.consumed + r.consumed, output := g.output ++ r.produced }
    else
      .going { state := s, consumed := g.consumed + r.consumed, output := g.output ++ r.produced }

/-- The first `n` calls of a feeding. -/
def feed (call : Call σ ε α β) (packed : List α) :
    Nat → (Nat → Nat × Nat) → Going σ β → Feed σ ε β
  | 0, _, g => .going g
  | n + 1, cuts, g =>
    match turn call packed (cuts 0) g with
    | .ended e => .ended e
    | .going g => feed call packed n (fun i => cuts (i + 1)) g

/-- Fed `packed` from state `s` in the given cuts, the decoder ends as `e` says. -/
def EndsAs (call : Call σ ε α β) (packed : List α) (cuts : Nat → Nat × Nat) (s : σ)
    (e : Ending ε β) : Prop :=
  ∃ n, feed call packed n cuts { state := s, consumed := 0, output := [] } = .ended e

/-- A feeding that has ended is not fed on. -/
theorem feed_ended {call : Call σ ε α β} {packed : List α} {n : Nat} :
    ∀ {cuts : Nat → Nat × Nat} {g : Going σ β} {e : Ending ε β},
      feed call packed n cuts g = .ended e → ∀ k, feed call packed (n + k) cuts g = .ended e := by
  induction n with
  | zero => intro cuts g e h; cases h
  | succ n ih =>
    intro cuts g e h k
    rw [Nat.succ_add, feed]
    rw [feed] at h
    match hturn : turn call packed (cuts 0) g with
    | .ended e' =>
      rw [hturn] at h
      exact h
    | .going g' =>
      rw [hturn] at h
      exact ih h k

/-- A feeding ends in one way. -/
theorem EndsAs.unique {call : Call σ ε α β} {packed : List α} {cuts : Nat → Nat × Nat} {s : σ}
    {a b : Ending ε β} (ha : EndsAs call packed cuts s a) (hb : EndsAs call packed cuts s b) :
    a = b := by
  obtain ⟨n, ha⟩ := ha
  obtain ⟨k, hb⟩ := hb
  have hlong := feed_ended ha k
  rw [Nat.add_comm, feed_ended hb n] at hlong
  injection hlong with hsame
  exact hsame.symm

/-- Where every turn ends the feeding well or leaves less to do, the feeding ends well. -/
theorem ends_of_turns {call : Call σ ε α β} {packed : List α} {I : Nat → Going σ β → Prop}
    {Q : Ending ε β → Prop}
    (hturn : ∀ k g cut, I k g → (∃ e, turn call packed cut g = .ended e ∧ Q e) ∨
      ∃ g' k', turn call packed cut g = .going g' ∧ I k' g' ∧ k' < k) :
    ∀ k g cuts, I k g → ∃ n e, feed call packed n cuts g = .ended e ∧ Q e := by
  intro k
  induction k using Nat.strongRecOn with
  | ind k ih =>
    intro g cuts hI
    rcases hturn k g (cuts 0) hI with ⟨e, hstep, he⟩ | ⟨g', k', hstep, hI', hless⟩
    · exact ⟨1, e, by rw [feed, hstep], he⟩
    · obtain ⟨n, e, hfeed, he⟩ := ih k' hless g' (fun i => cuts (i + 1)) hI'
      exact ⟨n + 1, e, by rw [feed, hstep]; exact hfeed, he⟩

/-- Two feedings that ended alike. -/
structure SameEnd (a b : Ending ε β) : Prop where
  outcome : a.outcome = b.outcome
  output : a.outcome = none → a.output = b.output
  ordered : a.output <+: b.output ∨ b.output <+: a.output

/-- One call did some of the machine's steps: what it may have answered. -/
inductive Serves (M : Machine μ τ α β) (Rep : σ → μ → List α → List β → Prop)
    (verdict : τ → Option ε) (truncated : ε) (Left : List α → Prop) (m : μ) (held : List α)
    (pending : List β) (input : List α) : Except ε (Reply β × σ) → Prop where
  /-- The machine fails. -/
  | failed {e : ε} {t : τ} {out : List β} {m' : μ} {rest : List α} :
      M.Runs m (held ++ input) out m' rest → M.step m' rest = .halt t → verdict t = some e →
      Serves M Rep verdict truncated Left m held pending input (.error e)
  /-- There is no more input, and the machine needs some. -/
  | truncated {out : List β} {m' : μ} {rest : List α} :
      input = [] → M.Runs m held out m' rest → M.step m' rest = .need →
      Serves M Rep verdict truncated Left m held pending input (.error truncated)
  | going {r : Reply β} {s' : σ} {out pending' : List β} {m' : μ} {held' : List α} :
      r.ended = false → r.consumed ≤ input.length → 0 < r.consumed ∨ 0 < r.produced.length →
      Rep s' m' held' pending' →
      M.Runs m (held ++ input) out m' (held' ++ input.drop r.consumed) →
      pending ++ out = r.produced ++ pending' →
      Serves M Rep verdict truncated Left m held pending input (.ok (r, s'))
  | ended {r : Reply β} {s' : σ} {out : List β} {m' : μ} {held' : List α} {t : τ} :
      r.ended = true → r.consumed ≤ input.length → Left held' →
      M.Runs m (held ++ input) out m' (held' ++ input.drop r.consumed) →
      M.step m' (held' ++ input.drop r.consumed) = .halt t → verdict t = none →
      pending ++ out = r.produced →
      Serves M Rep verdict truncated Left m held pending input (.ok (r, s'))

/-- The decoder resumes the machine.  `Left` says what it may still hold at the end. -/
structure Resumes (M : Machine μ τ α β) (call : Call σ ε α β)
    (Rep : σ → μ → List α → List β → Prop) (verdict : τ → Option ε) (truncated : ε)
    (Left : List α → Prop) : Prop where
  good : ∀ s m held pending, Rep s m held pending → M.Good m
  serves : ∀ s m held pending input room, Rep s m held pending → 0 < room →
    Serves M Rep verdict truncated Left m held pending input (call s input room)

namespace Machine

/-- What a stop of the machine means to the caller. -/
def outcome (M : Machine μ τ α β) (verdict : τ → Option ε) (truncated : ε) (m : μ)
    (rest : List α) : Option ε :=
  match M.step m rest with
  | .halt t => verdict t
  | _ => some truncated

end Machine

section

variable {M : Machine μ τ α β} {call : Call σ ε α β} {Rep : σ → μ → List α → List β → Prop}
  {verdict : τ → Option ε} {truncated : ε} {Left : List α → Prop}

/-- Where a feeding stands in the machine's run over the whole stream. -/
structure Stands (M : Machine μ τ α β) (Rep : σ → μ → List α → List β → Prop) (m₀ : μ)
    (packed : List α) (g : Going σ β) (m : μ) (held : List α) (pending : List β) : Prop where
  rep : Rep g.state m held pending
  run : M.Runs m₀ packed (g.output ++ pending) m (held ++ packed.drop g.consumed)
  within : g.consumed ≤ packed.length

/-- What the machine's stop says of how a feeding may end. -/
structure EndsAt (M : Machine μ τ α β) (verdict : τ → Option ε) (truncated : ε)
    (Left : List α → Prop) (packed : List α) (out : List β) (m : μ) (rest : List α)
    (e : Ending ε β) : Prop where
  outcome : e.outcome = M.outcome verdict truncated m rest
  output : e.output <+: out
  all : e.outcome = none → e.output = out ∧ e.consumed ≤ packed.length ∧
    ∃ held, Left held ∧ rest = held ++ packed.drop e.consumed

variable {m₀ m m' : μ} {packed rest : List α} {out : List β}

/-- One call of a feeding ends as the machine does, or brings it nearer. -/
theorem Resumes.turn (hR : Resumes M call Rep verdict truncated Left)
    (hstop : M.Runs m₀ packed out m' rest) (hstops : M.Stops m' rest) {g : Going σ β}
    {held : List α} {pending : List β} (hs : Stands M Rep m₀ packed g m held pending)
    (cut : Nat × Nat) :
    (∃ e, turn call packed cut g = .ended e ∧
      EndsAt M verdict truncated Left packed out m' rest e) ∨
    ∃ g' m₁ held₁ pending₁, turn call packed cut g = .going g' ∧
      Stands M Rep m₀ packed g' m₁ held₁ pending₁ ∧
      (packed.length - g'.consumed) + (out.length - g'.output.length) <
        (packed.length - g.consumed) + (out.length - g.output.length) := by
  have hwithin := hs.within
  have hsplit : packed.drop g.consumed =
      (packed.drop g.consumed).take (cut.1 + 1) ++
        (packed.drop g.consumed).drop (cut.1 + 1) :=
    (List.take_append_drop _ _).symm
  obtain ⟨out₀, hcont, hout₀⟩ := hs.run.to_stop hstop hstops
  have hprefix : g.output <+: out := ⟨pending ++ out₀, by rw [hout₀, List.append_assoc]⟩
  have hserves := hR.serves g.state m held pending ((packed.drop g.consumed).take (cut.1 + 1))
    (cut.2 + 1) hs.rep (Nat.succ_pos _)
  have hlocal : ∀ {o m₁ rest₁},
      M.Runs m (held ++ (packed.drop g.consumed).take (cut.1 + 1)) o m₁ rest₁ →
      M.Runs m₀ packed (g.output ++ pending ++ o) m₁
        (rest₁ ++ (packed.drop g.consumed).drop (cut.1 + 1)) := by
    intro o m₁ rest₁ hrun
    refine hs.run.trans ?_
    have hmore := hrun.append ((packed.drop g.consumed).drop (cut.1 + 1))
    rwa [List.append_assoc, ← hsplit] at hmore
  have hdrop : ∀ n, n ≤ ((packed.drop g.consumed).take (cut.1 + 1)).length →
      ((packed.drop g.consumed).take (cut.1 + 1)).drop n ++
        (packed.drop g.consumed).drop (cut.1 + 1) = packed.drop (g.consumed + n) := by
    intro n hn
    rw [← List.drop_append_of_le_length hn, ← hsplit, List.drop_drop]
  have hfit : ∀ n, n ≤ ((packed.drop g.consumed).take (cut.1 + 1)).length →
      g.consumed + n ≤ packed.length := by
    intro n hn
    rw [List.length_take, List.length_drop] at hn
    omega
  rw [Sansio.turn]
  generalize hcall : call g.state ((packed.drop g.consumed).take (cut.1 + 1)) (cut.2 + 1) = answer
    at hserves
  cases hserves with
  | failed hrun hhalt hverdict =>
    left
    refine ⟨_, rfl, ?_, hprefix, fun h => absurd h (by simp)⟩
    obtain ⟨hlong, hhalt⟩ := hrun.halt_append hhalt ((packed.drop g.consumed).drop (cut.1 + 1))
    rw [List.append_assoc, ← hsplit] at hlong
    obtain ⟨_, hback, _⟩ := (hs.run.trans hlong).to_stop hstop hstops
    cases hback with
    | refl => simp only [Machine.outcome, hhalt, hverdict]
    | step hstep _ => exact absurd (hhalt.symm.trans hstep) (by simp)
  | @truncated _ m₁ rest₁ hnil hrun hneed =>
    left
    refine ⟨_, rfl, ?_, hprefix, fun h => absurd h (by simp)⟩
    have hend : packed.drop g.consumed = [] := by
      rcases List.take_eq_nil_iff.mp hnil with hzero | hend
      · omega
      · exact hend
    have hwhole := hs.run
    rw [hend, List.append_nil] at hwhole
    obtain ⟨_, hback, _⟩ := (hwhole.trans hrun).to_stop hstop hstops
    cases hback with
    | refl => simp only [Machine.outcome, hneed]
    | step hstep _ => exact absurd (hneed.symm.trans hstep) (by simp)
  | @going r s' o pending' m₁ held' hended hconsumed hprogress hrep hrun hout =>
    right
    refine ⟨{ state := s', consumed := g.consumed + r.consumed, output := g.output ++ r.produced },
      m₁, held', pending', ?_, ⟨hrep, ?_, hfit _ hconsumed⟩, ?_⟩
    · simp only [hended, Bool.false_eq_true, if_false]
    · have hwhole := hlocal hrun
      rwa [List.append_assoc held', hdrop _ hconsumed, List.append_assoc, hout,
        ← List.append_assoc] at hwhole
    · have hwhole := hlocal hrun
      obtain ⟨out₁, _, hout₁⟩ := hwhole.to_stop hstop hstops
      rw [List.append_assoc g.output, hout] at hout₁
      have hlen := congrArg List.length hout₁
      simp only [List.length_append] at hlen ⊢
      have := hfit _ hconsumed
      omega
  | @ended r s' o m₁ held' t hended hconsumed hleft hrun hhalt hverdict hout =>
    left
    refine ⟨{ outcome := none, consumed := g.consumed + r.consumed,
              output := g.output ++ r.produced }, ?_, ?_⟩
    · simp only [hended, if_true]
    · have hwhole := hlocal hrun
      obtain ⟨_, hhalt⟩ := hrun.halt_append hhalt ((packed.drop g.consumed).drop (cut.1 + 1))
      obtain ⟨out₁, hback, hout₁⟩ := hwhole.to_stop hstop hstops
      cases hback with
      | step hstep _ => exact absurd (hhalt.symm.trans hstep) (by simp)
      | refl =>
        have hall : g.output ++ r.produced = out := by
          rw [hout₁, List.append_nil, ← hout, List.append_assoc]
        refine ⟨?_, ⟨[], by rw [hall, List.append_nil]⟩, fun _ => ⟨hall, hfit _ hconsumed, held',
          hleft, ?_⟩⟩
        · simp only [Machine.outcome, hhalt, hverdict]
        · rw [List.append_assoc, hdrop _ hconsumed]

/-- Every feeding of a decoder that resumes a machine ends, as the machine does. -/
theorem Resumes.ends (hR : Resumes M call Rep verdict truncated Left) {s : σ}
    (hrep : Rep s m₀ [] []) (packed : List α) :
    ∃ out m' rest, M.Runs m₀ packed out m' rest ∧ M.Stops m' rest ∧
      ∀ cuts, ∃ e, EndsAs call packed cuts s e ∧
        EndsAt M verdict truncated Left packed out m' rest e := by
  obtain ⟨out, m', rest, hstop, hstops⟩ := M.exists_stop m₀ packed (hR.good _ _ _ _ hrep)
  refine ⟨out, m', rest, hstop, hstops, ?_⟩
  have hall : ∀ n (g : Going σ β) m held pending cuts,
      (packed.length - g.consumed) + (out.length - g.output.length) < n →
      Stands M Rep m₀ packed g m held pending →
      ∃ k e, feed call packed k cuts g = .ended e ∧
        EndsAt M verdict truncated Left packed out m' rest e := by
    intro n
    induction n with
    | zero => intro g m held pending cuts h; exact absurd h (Nat.not_lt_zero _)
    | succ n ih =>
      intro g m held pending cuts hlt hs
      rcases hR.turn hstop hstops hs (cuts 0) with ⟨e, hturn, he⟩ | ⟨g', m₁, h₁, p₁, hturn, hs', hless⟩
      · exact ⟨1, e, by rw [feed, hturn], he⟩
      · obtain ⟨k, e, hfeed, he⟩ := ih g' m₁ h₁ p₁ (fun i => cuts (i + 1)) (by omega) hs'
        exact ⟨k + 1, e, by rw [feed, hturn]; exact hfeed, he⟩
  intro cuts
  have hstands : Stands M Rep m₀ packed { state := s, consumed := 0, output := [] } m₀ [] [] :=
    ⟨hrep, Machine.Runs.refl _ _, Nat.zero_le _⟩
  obtain ⟨k, e, hfeed, he⟩ := hall _ _ m₀ [] [] cuts (Nat.lt_succ_self _) hstands
  exact ⟨e, ⟨k, hfeed⟩, he⟩

theorem EndsAt.same {a b : Ending ε β}
    (ha : EndsAt M verdict truncated Left packed out m' rest a)
    (hb : EndsAt M verdict truncated Left packed out m' rest b) : SameEnd a b where
  outcome := ha.outcome.trans hb.outcome.symm
  output := fun h => by
    rw [(ha.all h).1, (hb.all (hb.outcome.trans (ha.outcome.symm.trans h))).1]
  ordered := List.prefix_or_prefix_of_prefix ha.output hb.output

end
end Sansio
