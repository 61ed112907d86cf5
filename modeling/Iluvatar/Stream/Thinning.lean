/-
`ThinningBudget`: a cap on the bytes of all checkpoints, and what it keeps of them.

How often the spacing of a resumed index doubles the interval is worked out in floating
point; it is the parameter `rounds`, which no indexer started from an empty index asks.
-/
import Iluvatar.Stream.IndexerTable
import Iluvatar.Stream.IndexerMoves
import Mathlib.Data.List.Chain

namespace Iluvatar

variable {σ κ : Type}

def u64Max : Nat := 2 ^ 64 - 1

/-- `saturating_mul(2)`. -/
def doubled (n : Nat) : Nat := min (2 * n) u64Max

/-- Hard cap on total checkpoint data, spread evenly over a stream of any length. -/
structure ThinningBudget where
  budget : Nat
  interval : Nat
  started : Bool
  deriving DecidableEq, Repr

namespace ThinningBudget

def new (budget : UInt64) : ThinningBudget :=
  { budget := budget.toNat, interval := 1024 * 1024, started := false }

/-- Set the minimum (and starting) interval; doubling has to grow it. -/
def withMinInterval (s : ThinningBudget) (minInterval : UInt64) : ThinningBudget :=
  { s with interval := max minInterval.toNat 1 }

/-- A budget as its constructors make it. -/
inductive Built : ThinningBudget → Prop where
  | new (budget : UInt64) : Built (new budget)
  | withMinInterval (budget minInterval : UInt64) : Built ((new budget).withMinInterval minInterval)

theorem Built.spec {s : ThinningBudget} (h : s.Built) :
    s.started = false ∧ 0 < s.interval ∧ s.interval ≤ u64Max := by
  cases h with
  | new budget =>
    have hmin : (ThinningBudget.new budget).interval = 1024 * 1024 := rfl
    unfold u64Max
    exact ⟨rfl, by omega, by omega⟩
  | withMinInterval budget minInterval =>
    have hlt := minInterval.toNat_lt
    refine ⟨rfl, ?_, ?_⟩
    · show 0 < max minInterval.toNat 1
      omega
    · show max minInterval.toNat 1 ≤ u64Max
      unfold u64Max
      omega

/-- Start from the mean spacing of the checkpoints there are.  `rounds` counts the doublings. -/
def start (rounds : Nat → Nat → Nat → Nat) (s : ThinningBudget) (ctx : CheckpointContext) :
    ThinningBudget :=
  if s.started = true ∨ ctx.checkpointCount < 2 then { s with started := true }
  else
    { s with
      started := true
      interval := doubled^[rounds s.interval ctx.lastCheckpointUncompressedPos
        (ctx.checkpointCount - 1)] s.interval }

end ThinningBudget

def CheckpointStrategy.thinningBudget (rounds : Nat → Nat → Nat → Nat) :
    CheckpointStrategy ThinningBudget where
  shouldCheckpoint s ctx :=
    let s := s.start rounds ctx
    (decide (s.interval ≤ ctx.uncompressedPos - ctx.lastCheckpointUncompressedPos), s)
  onCheckpointCreated s _ _ := s
  shouldThin s ctx :=
    let s := s.start rounds ctx
    if ctx.totalCheckpointDataBytes ≤ s.budget then (false, s)
    else (true, { s with interval := doubled s.interval })

/-- A checkpoint lies at the unpacked offset it was asked for. -/
def Codec.Places (codec : Codec σ κ) : Prop :=
  ∀ s c u cp, codec.checkpoint s c u = .ok (some cp) → cp.uncompressedOffset = u

/-- A codec that can checkpoint at any time. -/
def Codec.Always (codec : Codec σ κ) : Prop :=
  ∀ s c u, ∃ cp, codec.checkpoint s c u = .ok (some cp) ∧ cp.uncompressedOffset = u

theorem Codec.Always.places {codec : Codec σ κ} (h : codec.Always) : codec.Places := by
  intro s c u cp hcp
  obtain ⟨cp', hcp', hplace⟩ := h s c u
  rw [hcp] at hcp'
  obtain rfl := Option.some.inj (Except.ok.inj hcp')
  exact hplace

namespace StreamIndex

theorem keepAt_getLast :
    ∀ (cps : List (Checkpoint κ)) (i : Nat), (keepAt (i + cps.length) i cps).getLast? = cps.getLast?
  | [], i => rfl
  | [cp], i => by
    have hlast : i = i + [cp].length - 1 := rfl
    rw [keepAt, if_pos (.inr hlast)]
    rfl
  | cp :: cp' :: cps, i => by
    have hnext := keepAt_getLast (cp' :: cps) (i + 1)
    have hlen : i + (cp :: cp' :: cps).length = i + 1 + (cp' :: cps).length := by
      simp only [List.length_cons]
      omega
    have hkeep : keepAt (i + 1 + (cp' :: cps).length) (i + 1) (cp' :: cps) ≠ [] := by
      intro hnil
      rw [hnil] at hnext
      exact absurd hnext.symm (by simp)
    rw [keepAt, hlen, List.getLast?_cons_cons]
    split
    · rw [List.getLast?_cons_of_ne_nil hkeep, hnext]
    · exact hnext

/-- The newest checkpoint is dropped only where it is the only one but the first. -/
theorem thin_lastCheckpoint (index : StreamIndex σ κ) (h : index.checkpoints.length ≠ 2) :
    index.thin.2.lastCheckpoint = index.lastCheckpoint := by
  match hcps : index.checkpoints with
  | [] => simp [thin, hcps]
  | [_] => simp [thin, hcps]
  | [_, _] => exact absurd (by rw [hcps]; rfl) h
  | cp₀ :: cp₁ :: cp₂ :: cps =>
    have hthin : index.thin.2.checkpoints =
        keepAt (0 + (cp₀ :: cp₁ :: cp₂ :: cps).length) 0 (cp₀ :: cp₁ :: cp₂ :: cps) := by
      simp [thin, hcps]
    unfold lastCheckpoint
    rw [hthin, keepAt_getLast, hcps]

/-- Checkpoints less than `w` apart. -/
def Near (w : Nat) (a b : Checkpoint κ) : Prop := b.uncompressedOffset < a.uncompressedOffset + w

/-- Dropping every other checkpoint at most doubles the gaps. -/
theorem keepAt_near {w : Nat} :
    ∀ (cps : List (Checkpoint κ)) (n i : Nat), n = i + cps.length → i % 2 = 0 →
      cps.IsChain (Near w) → (keepAt n i cps).IsChain (Near (2 * w)) ∧
        (keepAt n i cps).head? = cps.head?
  | [], _, _, _, _, _ => ⟨List.IsChain.nil, rfl⟩
  | [cp], n, i, _, heven, _ => by
    rw [keepAt, if_pos (.inl heven)]
    exact ⟨List.IsChain.singleton cp, rfl⟩
  | [cp, cp'], n, i, hn, heven, hchain => by
    have hlast : i + 1 = n - 1 := by
      rw [hn]
      rfl
    have hnear := hchain.rel
    rw [keepAt, if_pos (.inl heven), keepAt, if_pos (.inr hlast)]
    refine ⟨List.isChain_pair.mpr ?_, rfl⟩
    unfold Near at hnear ⊢
    omega
  | cp :: cp' :: cp'' :: cps, n, i, hn, heven, hchain => by
    have hnear := hchain.rel
    have hnear' := hchain.of_cons.rel
    have hlen : n = i + 2 + (cp'' :: cps).length := by
      rw [hn]
      simp only [List.length_cons]
      omega
    have hdrop : ¬ ((i + 1) % 2 = 0 ∨ i + 1 = n - 1) := by
      rw [hlen, List.length_cons]
      omega
    obtain ⟨hrest, hhead⟩ :=
      keepAt_near (cp'' :: cps) n (i + 2) hlen (by omega) hchain.of_cons.of_cons
    rw [keepAt, if_pos (.inl heven), keepAt, if_neg hdrop]
    refine ⟨?_, rfl⟩
    show (cp :: keepAt n (i + 2) (cp'' :: cps)).IsChain _
    generalize keepAt n (i + 2) (cp'' :: cps) = kept at hrest hhead
    cases kept with
    | nil => exact List.IsChain.singleton cp
    | cons next kept =>
      obtain rfl : next = cp'' := Option.some.inj hhead
      refine hrest.cons_cons ?_
      unfold Near at hnear hnear' ⊢
      omega

end StreamIndex

namespace StreamIndexer

variable {codec : Codec σ κ} {rounds : Nat → Nat → Nat → Nat} {budget : Nat}

/-- The table holds the start, rises strictly, and the running counts are its own. -/
structure Tabled (codec : Codec σ κ) (budget : Nat) (x : StreamIndexer σ κ ThinningBudget) :
    Prop where
  sameCodec : x.index.codec = codec
  sameBudget : x.strategy.budget = budget
  first : ∃ cps, x.index.checkpoints = .start :: cps
  increasing : x.index.checkpoints.Pairwise fun a b => a.uncompressedOffset < b.uncompressedOffset
  last : ∃ cp, x.index.lastCheckpoint = some cp ∧ cp.uncompressedOffset = x.lastCheckpointPos
  reached : x.lastCheckpointPos ≤ x.unpackedPos
  bytes : x.checkpointDataBytes = x.index.checkpointDataBytes

/-- The checkpoints are within the budget, or only the start is left. -/
def Within (budget : Nat) (x : StreamIndexer σ κ ThinningBudget) : Prop :=
  x.checkpointDataBytes ≤ budget ∨ x.index.checkpoints = [.start]

theorem start_budget (s : ThinningBudget) (ctx : CheckpointContext) :
    (s.start rounds ctx).budget = s.budget := by
  unfold ThinningBudget.start
  split <;> rfl

theorem shouldThin_budget (s : ThinningBudget) (ctx : CheckpointContext) :
    ((CheckpointStrategy.thinningBudget rounds).shouldThin s ctx).2.budget = s.budget := by
  unfold CheckpointStrategy.thinningBudget
  simp only
  split <;> exact start_budget s ctx

/-- The strategy stops asking for thinning once the budget is kept. -/
theorem shouldThin_false {s : ThinningBudget} {ctx : CheckpointContext}
    (h : ((CheckpointStrategy.thinningBudget rounds).shouldThin s ctx).1 = false) :
    ctx.totalCheckpointDataBytes ≤ s.budget := by
  unfold CheckpointStrategy.thinningBudget at h
  simp only at h
  split at h
  · rename_i hle
    rw [start_budget] at hle
    exact hle
  · cases h

theorem Tabled.withStrategy {x : StreamIndexer σ κ ThinningBudget} (h : Tabled codec budget x)
    {s : ThinningBudget} (hs : s.budget = budget) :
    Tabled codec budget { x with strategy := s } :=
  ⟨h.sameCodec, hs, h.first, h.increasing, h.last, h.reached, h.bytes⟩

/-- The last checkpoint lies furthest into the stream. -/
theorem Tabled.most {x : StreamIndexer σ κ ThinningBudget} (h : Tabled codec budget x) :
    ∀ cp ∈ x.index.checkpoints, cp.uncompressedOffset ≤ x.lastCheckpointPos := by
  obtain ⟨last, hlast, hpos⟩ := h.last
  obtain ⟨init, hinit⟩ : ∃ init, x.index.checkpoints = init ++ [last] :=
    ⟨_, (List.dropLast_append_getLast? last hlast).symm⟩
  have hinc := h.increasing
  rw [hinit, List.pairwise_append] at hinc
  intro cp hmem
  rw [hinit, List.mem_append, List.mem_singleton] at hmem
  rcases hmem with hmem | rfl
  · have := hinc.2.2 cp hmem last (List.mem_singleton_self _)
    omega
  · omega

/-- A thinning round keeps the table, and the start in it. -/
theorem Tabled.thin {x : StreamIndexer σ κ ThinningBudget} (h : Tabled codec budget x)
    {s : ThinningBudget} (hs : s.budget = budget) (hthin : x.index.thin.1 = true)
    {cp : Checkpoint κ} (hcp : x.index.thin.2.lastCheckpoint = some cp) :
    Tabled codec budget { x with
      strategy := s
      index := x.index.thin.2
      checkpointDataBytes := x.index.thin.2.checkpointDataBytes
      lastCheckpointPos := cp.uncompressedOffset } := by
  obtain ⟨cps, hcps⟩ := h.first
  obtain ⟨kept, heq, hsub⟩ := StreamIndex.thin_spec hcps hthin
  have hsub' : (Checkpoint.start :: kept).Sublist x.index.checkpoints := by
    rw [hcps]
    exact hsub.cons_cons _
  have hmem : cp ∈ x.index.checkpoints := by
    rw [heq] at hcp
    exact hsub'.subset (List.mem_of_getLast? hcp)
  have hmost := h.most cp hmem
  have hreached := h.reached
  refine ⟨?_, hs, ?_, ?_, ⟨cp, hcp, rfl⟩, Nat.le_trans hmost hreached, rfl⟩
  · show x.index.thin.2.codec = codec
    rw [heq]
    exact h.sameCodec
  · show ∃ cps, x.index.thin.2.checkpoints = .start :: cps
    rw [heq]
    exact ⟨kept, rfl⟩
  · show x.index.thin.2.checkpoints.Pairwise _
    rw [heq]
    exact h.increasing.sublist hsub'

/-- Laying a checkpoint where the decoder stands. -/
theorem Tabled.push {x : StreamIndexer σ κ ThinningBudget} (h : Tabled codec budget x)
    (hpast : x.lastCheckpointPos < x.unpackedPos) {cp : Checkpoint κ}
    (hplace : cp.uncompressedOffset = x.unpackedPos) :
    Tabled codec budget { x with
      checkpointDataBytes := x.checkpointDataBytes + cp.estimatedSize x.index.codec
      index := { x.index with checkpoints := x.index.checkpoints ++ [cp] }
      lastCheckpointPos := x.unpackedPos } := by
  obtain ⟨cps, hcps⟩ := h.first
  refine ⟨h.sameCodec, h.sameBudget, ⟨cps ++ [cp], ?_⟩, ?_, ⟨cp, List.getLast?_concat, hplace⟩,
    Nat.le_refl _, ?_⟩
  · show x.index.checkpoints ++ [cp] = _
    rw [hcps]
    rfl
  · refine List.pairwise_append.mpr ⟨h.increasing, List.pairwise_singleton _ _, ?_⟩
    intro a ha b hb
    rw [List.mem_singleton.mp hb, hplace]
    exact Nat.lt_of_le_of_lt (h.most a ha) hpast
  · show x.checkpointDataBytes + cp.estimatedSize x.index.codec = _
    rw [h.bytes]
    simp [StreamIndex.checkpointDataBytes]

/-- What `tryCheckpoint` comes to: nothing, or a checkpoint laid and thinned. -/
theorem tryCheckpoint_cases {notify : Bool} {x x' : StreamIndexer σ κ ThinningBudget}
    (h : Tabled codec budget x)
    (hrun : tryCheckpoint (.thinningBudget rounds) notify x = .ok x') :
    x' = x ∧ (x.unpackedPos = x.lastCheckpointPos ∨
      codec.checkpoint x.decompressor x.compressedPos x.unpackedPos = .ok none) ∨
    ∃ cp, codec.checkpoint x.decompressor x.compressedPos x.unpackedPos = .ok (some cp) ∧
      x.lastCheckpointPos < x.unpackedPos ∧
      thinWhile (.thinningBudget rounds) { x with
        checkpointDataBytes := x.checkpointDataBytes + cp.estimatedSize x.index.codec
        index := { x.index with checkpoints := x.index.checkpoints ++ [cp] }
        lastCheckpointPos := x.unpackedPos } = .ok x' := by
  obtain rfl := h.sameCodec
  obtain ⟨last, hlast, hpos⟩ := h.last
  have hreached := h.reached
  unfold tryCheckpoint at hrun
  rw [hlast] at hrun
  simp only at hrun
  by_cases hhere : x.unpackedPos = x.lastCheckpointPos ∧ last.uncompressedOffset = x.unpackedPos
  · rw [if_pos hhere] at hrun
    exact .inl ⟨(Except.ok.inj hrun).symm, .inl hhere.1⟩
  · rw [if_neg hhere] at hrun
    cases hcp : x.index.codec.checkpoint x.decompressor x.compressedPos x.unpackedPos with
    | error e =>
      simp only [hcp] at hrun
      cases hrun
    | ok o =>
      cases o with
      | none =>
        simp only [hcp] at hrun
        exact .inl ⟨(Except.ok.inj hrun).symm, .inr rfl⟩
      | some cp =>
        simp only [hcp] at hrun
        refine .inr ⟨cp, rfl, by omega, ?_⟩
        cases notify <;> exact hrun

/-- After laying a checkpoint the budget is kept again. -/
theorem tryCheckpoint_within (hplaces : codec.Places) {notify : Bool}
    {x x' : StreamIndexer σ κ ThinningBudget} (h : Tabled codec budget x) (hw : Within budget x)
    (hrun : tryCheckpoint (.thinningBudget rounds) notify x = .ok x') :
    Tabled codec budget x' ∧ Within budget x' := by
  rcases tryCheckpoint_cases h hrun with ⟨rfl, _⟩ | ⟨cp, hcp, hpast, hthin⟩
  · exact ⟨h, hw⟩
  · obtain ⟨y, hy, rfl, hstop⟩ := thinWhile_rule _ (P := Tabled codec budget)
      (fun hx _ hthin hcp => hx.thin ((shouldThin_budget _ _).trans hx.sameBudget) hthin hcp)
      _ (Nat.le_refl _) (h.push hpast (hplaces _ _ _ _ hcp)) hthin
    refine ⟨hy.withStrategy ((shouldThin_budget _ _).trans hy.sameBudget), ?_⟩
    rcases hstop with hkept | hnone
    · left
      have hle := shouldThin_false hkept
      rw [hy.sameBudget] at hle
      exact hle
    · right
      obtain ⟨cps, hcps⟩ := hy.first
      cases cps with
      | nil => exact hcps
      | cons cp cps =>
        have hthins : y.index.thin.1 = true := by
          cases cps <;> simp [StreamIndex.thin, hcps]
        rw [hnone] at hthins
        cases hthins

end StreamIndexer
end Iluvatar
