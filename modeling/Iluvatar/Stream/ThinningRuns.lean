/-
Whole runs of an indexer under a thinning budget: the budget is kept, and the checkpoints lie
evenly over what has been decoded.
-/
import Iluvatar.Compress.None
import Iluvatar.Stream.Thinning

namespace Iluvatar

variable {σ κ : Type}

namespace StreamIndexer

variable {codec : Codec σ κ} {rounds : Nat → Nat → Nat → Nat} {budget : Nat}

/-- An indexer changed where its table and its counts do not show. -/
structure SameTable (x x' : StreamIndexer σ κ ThinningBudget) : Prop where
  codec : x'.index.codec = x.index.codec
  strategy : x'.strategy = x.strategy
  checkpoints : x'.index.checkpoints = x.index.checkpoints
  last : x'.lastCheckpointPos = x.lastCheckpointPos
  unpacked : x'.unpackedPos = x.unpackedPos
  bytes : x'.checkpointDataBytes = x.checkpointDataBytes

theorem Tabled.same {x x' : StreamIndexer σ κ ThinningBudget} (h : Tabled codec budget x)
    (hsame : SameTable x x') : Tabled codec budget x' := by
  have hdata : x'.index.checkpointDataBytes = x.index.checkpointDataBytes := by
    unfold StreamIndex.checkpointDataBytes
    rw [hsame.codec, hsame.checkpoints]
  have hlast : x'.index.lastCheckpoint = x.index.lastCheckpoint := by
    unfold StreamIndex.lastCheckpoint
    rw [hsame.checkpoints]
  constructor
  · rw [hsame.codec]
    exact h.sameCodec
  · rw [hsame.strategy]
    exact h.sameBudget
  · rw [hsame.checkpoints]
    exact h.first
  · rw [hsame.checkpoints]
    exact h.increasing
  · rw [hlast, hsame.last]
    exact h.last
  · rw [hsame.last, hsame.unpacked]
    exact h.reached
  · rw [hsame.bytes, hdata]
    exact h.bytes

theorem Within.same {x x' : StreamIndexer σ κ ThinningBudget} (h : Within budget x)
    (hsame : SameTable x x') : Within budget x' := by
  unfold Within
  rw [hsame.bytes, hsame.checkpoints]
  exact h

theorem readOutput_same (x : StreamIndexer σ κ ThinningBudget) (len : Nat) :
    SameTable x (x.readOutput len).2 := by
  unfold readOutput
  simp only
  split
  · exact ⟨rfl, rfl, rfl, rfl, rfl, rfl⟩
  · split <;> exact ⟨rfl, rfl, rfl, rfl, rfl, rfl⟩

theorem Tabled.advance {x : StreamIndexer σ κ ThinningBudget} (h : Tabled codec budget x)
    (result : DecompressResult) (d : σ) : Tabled codec budget (x.advance result d) :=
  ⟨h.sameCodec, h.sameBudget, h.first, h.increasing, h.last,
    Nat.le_trans h.reached (Nat.le_add_right _ _), h.bytes⟩

theorem shouldCheckpoint_budget (rounds : Nat → Nat → Nat → Nat) (s : ThinningBudget) (ctx : CheckpointContext) :
    ((CheckpointStrategy.thinningBudget rounds).shouldCheckpoint s ctx).2.budget = s.budget :=
  start_budget s ctx

theorem asked_table {x : StreamIndexer σ κ ThinningBudget} (h : Tabled codec budget x)
    (hw : Within budget x) (result : DecompressResult) :
    Tabled codec budget (x.asked (.thinningBudget rounds) result) ∧
      Within budget (x.asked (.thinningBudget rounds) result) := by
  unfold asked
  split
  · exact ⟨h.withStrategy ((shouldCheckpoint_budget _ _ _).trans h.sameBudget), hw⟩
  · exact ⟨h, hw⟩

/-- Covering the bytes of a decode call keeps the table and the budget. -/
theorem cover_within (hplaces : codec.Places) {before : Nat} {result : DecompressResult}
    {x x₁ : StreamIndexer σ κ ThinningBudget} (h : Tabled codec budget x) (hw : Within budget x)
    (hrun : cover (.thinningBudget rounds) before result x = .ok x₁) :
    Tabled codec budget x₁ ∧ Within budget x₁ := by
  rcases cover_cases hrun with ⟨_, rfl⟩ | ⟨_, y, out, hy, _, rfl⟩
  · exact ⟨h, hw⟩
  · have hkept : Tabled codec budget y ∧ Within budget y := by
      have hbudget := shouldCheckpoint_budget rounds x.strategy x.context
      have hasked := h.withStrategy (hbudget.trans h.sameBudget)
      rcases hy with ⟨_, rfl⟩ | ⟨_, ⟨_, rfl⟩ | ⟨_, htry⟩⟩
      · exact ⟨h, hw⟩
      · exact ⟨hasked, hw⟩
      · exact tryCheckpoint_within hplaces hasked hw htry
    have hsame : SameTable y { y with
        outBuf := out.1
        outRead := out.2
        index := { y.index with indexedTo := y.unpackedPos } } := ⟨rfl, rfl, rfl, rfl, rfl, rfl⟩
    exact ⟨hkept.1.same hsame, hkept.2.same hsame⟩

/-- Every move of the caller keeps the table and the budget. -/
theorem kept_within (hplaces : codec.Places) :
    Kept (.thinningBudget rounds) (fun _ => True)
      fun x => Tabled codec budget x ∧ Within budget x where
  okState := fun _ _ _ => trivial
  withState := by
    intro x st h
    have hsame : SameTable x { x with state := st } := ⟨rfl, rfl, rfl, rfl, rfl, rfl⟩
    exact ⟨h.1.same hsame, h.2.same hsame⟩
  complete := by
    intro x h
    have hsame : SameTable x { x with
        index := { x.index with complete := true, unpackedLen := some x.unpackedPos }
        state := .done } := ⟨rfl, rfl, rfl, rfl, rfl, rfl⟩
    exact ⟨h.1.same hsame, h.2.same hsame⟩
  covered := by
    intro x result d x₁ h _ _ hrun
    exact cover_within hplaces (h.1.advance result d) h.2 hrun
  failed := by
    intro x result d f h _ _ _
    exact asked_table (h.1.advance result d) h.2 result
  stopped := by
    intro x result d x₁ x₂ _ _ _ _ h₁ _ htry
    exact tryCheckpoint_within hplaces h₁.1 h₁.2 htry
  provideData := by
    intro x data h
    have hsame : SameTable x (x.provideData data) := ⟨rfl, rfl, rfl, rfl, rfl, rfl⟩
    exact ⟨h.1.same hsame, h.2.same hsame⟩
  signalEof := by
    intro x h
    have hsame : SameTable x x.signalEof := ⟨rfl, rfl, rfl, rfl, rfl, rfl⟩
    exact ⟨h.1.same hsame, h.2.same hsame⟩
  setStopAt := by
    intro x offset h
    have hsame : SameTable x (x.setStopAt offset) := ⟨rfl, rfl, rfl, rfl, rfl, rfl⟩
    exact ⟨h.1.same hsame, h.2.same hsame⟩
  setEmitOutput := by
    intro x emit h
    have hsame : SameTable x (x.setEmitOutput emit) := ⟨rfl, rfl, rfl, rfl, rfl, rfl⟩
    exact ⟨h.1.same hsame, h.2.same hsame⟩
  readOutput := by
    intro x len h
    exact ⟨h.1.same (readOutput_same x len), h.2.same (readOutput_same x len)⟩

theorem new_tabled {s : ThinningBudget} {compressedLen : Option Nat}
    {x : StreamIndexer σ κ ThinningBudget} (hnew : new codec s compressedLen = .ok x) :
    Tabled codec s.budget x ∧ Within s.budget x := by
  unfold new at hnew
  cases hcreate : codec.create with
  | error e =>
    rw [hcreate] at hnew
    cases hnew
  | ok d =>
    rw [hcreate] at hnew
    obtain rfl := Except.ok.inj hnew
    refine ⟨⟨rfl, rfl, ⟨[], rfl⟩, List.pairwise_singleton _ _, ⟨.start, rfl, rfl⟩, Nat.le_refl _, rfl⟩,
      .inr rfl⟩

/-- The thinning loop cut off after some rounds: `none` where it would go on. -/
def thinFor (impl : CheckpointStrategy ThinningBudget) : Nat → StreamIndexer σ κ ThinningBudget →
    Option (Except Fault (StreamIndexer σ κ ThinningBudget))
  | 0, _ => none
  | n + 1, x =>
    let (ask, strategy) := impl.shouldThin x.strategy x.context
    if ask then
      if x.index.thin.1 then
        let index := x.index.thin.2
        match index.lastCheckpoint with
        | none => some (.error .panic)
        | some cp =>
          thinFor impl n { x with
            strategy
            index
            checkpointDataBytes := index.checkpointDataBytes
            lastCheckpointPos := cp.uncompressedOffset }
      else some (.ok { x with strategy })
    else some (.ok { x with strategy })

/-- The thinning loop has no more rounds than there are checkpoints. -/
theorem thinFor_ends (impl : CheckpointStrategy ThinningBudget) :
    ∀ n {x : StreamIndexer σ κ ThinningBudget}, x.index.checkpoints.length ≤ n →
      thinFor impl (n + 1) x = some (thinWhile impl x) := by
  intro n
  induction n with
  | zero =>
    intro x hlen
    have hnil : x.index.checkpoints = [] := List.length_eq_zero_iff.mp (by omega)
    have hthin : x.index.thin.1 = false := by simp [StreamIndex.thin, hnil]
    rw [thinFor, thinWhile]
    simp only [hthin, Bool.false_eq_true, if_false, dite_false]
    split <;> rfl
  | succ n ih =>
    intro x hlen
    rw [thinFor, thinWhile]
    simp only
    by_cases hask : (impl.shouldThin x.strategy x.context).1 = true
    · rw [if_pos hask, if_pos hask]
      by_cases hthin : x.index.thin.1 = true
      · have hshort := StreamIndex.thin_length_lt x.index hthin
        rw [if_pos hthin, dif_pos hthin]
        cases hlast : x.index.thin.2.lastCheckpoint with
        | none => rfl
        | some cp =>
          simp only
          apply ih
          show x.index.thin.2.checkpoints.length ≤ n
          omega
      · rw [if_neg hthin, dif_neg hthin]
    · rw [if_neg hask, if_neg hask]

/-- In every state an indexer under a thinning budget can get to, the budget is kept or only
the start is left; the start is there, the offsets rise, and the last checkpoint's position is
the one the indexer counts from.  Thinning ends, and drops the newest checkpoint only where it
is the only one besides the start. -/
theorem thinningBudget_respects_budget (rounds : Nat → Nat → Nat → Nat) (hplaces : codec.Places)
    (s : ThinningBudget) (compressedLen : Option Nat) {x₀ x : StreamIndexer σ κ ThinningBudget}
    (hnew : new codec s compressedLen = .ok x₀)
    (h : Reached (.thinningBudget rounds) (fun _ => True) x₀ x) :
    (x.index.checkpointDataBytes ≤ s.budget ∨ x.index.checkpoints = [.start]) ∧
      x.index.checkpoints.head? = some .start ∧
      x.index.checkpoints.Pairwise (fun a b => a.uncompressedOffset < b.uncompressedOffset) ∧
      (∃ cp, x.index.lastCheckpoint = some cp ∧ cp.uncompressedOffset = x.lastCheckpointPos) ∧
      x.lastCheckpointPos ≤ x.unpackedPos ∧
      (∀ index : StreamIndex σ κ, index.thin.2.lastCheckpoint ≠ index.lastCheckpoint →
        index.checkpoints.length = 2) ∧
      ∀ y : StreamIndexer σ κ ThinningBudget,
        thinFor (.thinningBudget rounds) (y.index.checkpoints.length + 1) y =
          some (thinWhile (.thinningBudget rounds) y) := by
  obtain ⟨htable, hwithin⟩ := (kept_within hplaces).reached (new_tabled hnew) h
  obtain ⟨cps, hcps⟩ := htable.first
  refine ⟨?_, by rw [hcps]; rfl, htable.increasing, htable.last, htable.reached, ?_, ?_⟩
  · rw [← htable.bytes]
    exact hwithin
  · intro index hdropped
    by_contra hlen
    exact hdropped (index.thin_lastCheckpoint hlen)
  · intro y
    exact thinFor_ends _ _ (Nat.le_refl _)

theorem thinningBudget_respects_budget_copy :
    let x₀ : StreamIndexer NoneDecompressor Empty ThinningBudget :=
      withParts .new (.new NoneDecompressor.codec none) ((ThinningBudget.new 20).withMinInterval 1)
        .needInput 0 0
    let x := (stepOnce (.thinningBudget fun _ _ _ => 0) (x₀.provideData [1, 2, 3])).2
    x.index.checkpointDataBytes ≤ 20 ∨ x.index.checkpoints = [.start] := by
  intro x₀ x
  have hplaces : NoneDecompressor.codec.Places := by
    intro s c u cp hcp
    cases hcp
    rfl
  exact (thinningBudget_respects_budget _ hplaces _ none rfl
    (.round (.provideData .start [1, 2, 3]) trivial)).1

end StreamIndexer
end Iluvatar
