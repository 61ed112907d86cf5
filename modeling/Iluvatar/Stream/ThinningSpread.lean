/-
How far apart the checkpoints of a thinning budget lie.

A round of thinning doubles the interval and at most doubles every gap, the one the decoder
stands in as well, so the gaps keep to the interval they were laid at.
-/
import Iluvatar.Stream.ThinningRuns

namespace Iluvatar

variable {σ κ : Type}

namespace StreamIndex

/-- A round of thinning at most doubles the gaps, and steps back less than one gap. -/
theorem thin_near {index : StreamIndex σ κ} {w : Nat} (hw : 0 < w)
    (hchain : index.checkpoints.IsChain (Near w)) (hthin : index.thin.1 = true) {a b : Checkpoint κ}
    (ha : index.lastCheckpoint = some a) (hb : index.thin.2.lastCheckpoint = some b) :
    index.thin.2.checkpoints.IsChain (Near (2 * w)) ∧
      a.uncompressedOffset < b.uncompressedOffset + w := by
  match hcps : index.checkpoints with
  | [] => simp [thin, hcps] at hthin
  | [_] => simp [thin, hcps] at hthin
  | [cp, cp'] =>
    have hkept : index.thin.2.checkpoints = [cp] := by simp [thin, hcps]
    unfold lastCheckpoint at ha hb
    rw [hcps] at ha hchain
    rw [hkept] at hb ⊢
    obtain rfl : cp' = a := Option.some.inj ha
    obtain rfl : cp = b := Option.some.inj hb
    exact ⟨List.IsChain.singleton cp, hchain.rel⟩
  | cp :: cp' :: cp'' :: cps =>
    have hkept : index.thin.2.checkpoints =
        keepAt (0 + (cp :: cp' :: cp'' :: cps).length) 0 (cp :: cp' :: cp'' :: cps) := by
      simp [thin, hcps]
    have hsame := index.thin_lastCheckpoint (by rw [hcps]; simp)
    rw [ha, hb] at hsame
    obtain rfl := Option.some.inj hsame
    rw [hcps] at hchain
    rw [hkept]
    exact ⟨(keepAt_near _ _ 0 rfl rfl hchain).1, by omega⟩

/-- Every offset up to the last gap has a checkpoint less than a gap before it. -/
theorem exists_near {w : Nat} :
    ∀ (cps : List (Checkpoint κ)) (first : Checkpoint κ), (first :: cps).IsChain (Near w) →
      ∀ o, first.uncompressedOffset ≤ o →
        (∀ last, (first :: cps).getLast? = some last → o < last.uncompressedOffset + w) →
        ∃ cp ∈ first :: cps, cp.uncompressedOffset ≤ o ∧ o < cp.uncompressedOffset + w := by
  intro cps
  induction cps with
  | nil =>
    intro first _ o hle hlast
    exact ⟨first, List.mem_singleton_self _, hle, hlast first rfl⟩
  | cons next cps ih =>
    intro first hchain o hle hlast
    have hnear : next.uncompressedOffset < first.uncompressedOffset + w := hchain.rel
    by_cases hnext : next.uncompressedOffset ≤ o
    · rw [List.getLast?_cons_cons] at hlast
      obtain ⟨cp, hmem, hcp⟩ := ih next hchain.of_cons o hnext hlast
      exact ⟨cp, List.mem_cons_of_mem _ hmem, hcp⟩
    · exact ⟨first, List.mem_cons_self, hle, by omega⟩

end StreamIndex

namespace StreamIndexer

variable {codec : Codec σ κ} {rounds : Nat → Nat → Nat → Nat} {budget : Nat}

/-- The interval has doubled `k` times, the gaps are within what that allows, and the decoder
has `slack` left to the end of its gap. -/
structure Spaced (start most k slack : Nat) (x : StreamIndexer σ κ ThinningBudget) : Prop where
  interval : x.strategy.interval = min (start * 2 ^ k) u64Max
  gaps : x.index.checkpoints.IsChain (StreamIndex.Near (2 ^ k * (start + most)))
  tail : x.unpackedPos - x.lastCheckpointPos + slack < 2 ^ k * (start + most)

variable {start most k slack : Nat}

theorem most_lt_spacing (most : Nat) (hstart : 0 < start) (k : Nat) : most < 2 ^ k * (start + most) := by
  have hpow := Nat.one_le_two_pow (n := k)
  have hle : 1 * (start + most) ≤ 2 ^ k * (start + most) := Nat.mul_le_mul_right _ hpow
  omega

/-- An interval and a decode call make a gap of that spacing. -/
theorem interval_add_le (start most n : Nat) : start * 2 ^ n + most ≤ 2 ^ n * (start + most) := by
  have hpow := Nat.one_le_two_pow (n := n)
  have hle : 1 * most ≤ 2 ^ n * most := Nat.mul_le_mul_right _ hpow
  rw [Nat.mul_add, Nat.mul_comm start]
  omega

theorem spacing_succ (k : Nat) : 2 ^ (k + 1) * (start + most) = 2 * (2 ^ k * (start + most)) := by
  rw [Nat.pow_succ, Nat.mul_comm (2 ^ k) 2, Nat.mul_assoc]

theorem doubled_interval (k : Nat) :
    doubled (min (start * 2 ^ k) u64Max) = min (start * 2 ^ (k + 1)) u64Max := by
  have hpow : start * 2 ^ (k + 1) = 2 * (start * 2 ^ k) := by
    rw [Nat.pow_succ, Nat.mul_comm (2 ^ k) 2, Nat.mul_left_comm]
  unfold doubled
  rw [hpow]
  omega

theorem Spaced.double {x : StreamIndexer σ κ ThinningBudget} (h : Spaced start most k slack x) :
    Spaced start most (k + 1) slack
      { x with strategy := { x.strategy with interval := doubled x.strategy.interval } } := by
  have htail := h.tail
  constructor
  · show doubled x.strategy.interval = _
    rw [h.interval, doubled_interval]
  · apply h.gaps.imp
    intro a b hab
    unfold StreamIndex.Near at hab ⊢
    rw [spacing_succ]
    omega
  · rw [spacing_succ]
    show x.unpackedPos - x.lastCheckpointPos + slack < _
    omega

theorem start_started {s : ThinningBudget} {ctx : CheckpointContext}
    (h : s.started = true ∨ ctx.checkpointCount < 2) :
    s.start rounds ctx = { s with started := true } := if_pos h

/-- A strategy under way doubles its interval where it asks for thinning. -/
theorem shouldThin_started (rounds : Nat → Nat → Nat → Nat) {s : ThinningBudget} (h : s.started = true) (ctx : CheckpointContext) :
    (((CheckpointStrategy.thinningBudget rounds).shouldThin s ctx).1 = false ∧
      ((CheckpointStrategy.thinningBudget rounds).shouldThin s ctx).2 = s) ∨
    (((CheckpointStrategy.thinningBudget rounds).shouldThin s ctx).1 = true ∧
      ((CheckpointStrategy.thinningBudget rounds).shouldThin s ctx).2 =
        { s with interval := doubled s.interval }) := by
  have hsame : s.start rounds ctx = s := by
    rw [start_started (.inl h), ← h]
  unfold CheckpointStrategy.thinningBudget
  simp only [hsame]
  split
  · exact .inl ⟨rfl, rfl⟩
  · exact .inr ⟨rfl, rfl⟩

/-- Under way at `unpacked`, with gaps as the interval allows. -/
structure Laying (codec : Codec σ κ) (budget start most unpacked indexed : Nat)
    (x : StreamIndexer σ κ ThinningBudget) : Prop where
  table : Tabled codec budget x
  started : x.strategy.started = true
  unpacked : x.unpackedPos = unpacked
  indexed : x.index.indexedTo = indexed
  spaced : ∃ k, Spaced start most k most x

variable {unpacked indexed : Nat}

theorem Laying.asked (rounds : Nat → Nat → Nat → Nat) {x : StreamIndexer σ κ ThinningBudget}
    (h : Laying codec budget start most unpacked indexed x) :
    Laying codec budget start most unpacked indexed { x with
      strategy :=
        ((CheckpointStrategy.thinningBudget rounds).shouldThin x.strategy x.context).2 } := by
  obtain ⟨k, hk⟩ := h.spaced
  rcases shouldThin_started rounds h.started x.context with ⟨_, hs⟩ | ⟨_, hs⟩
  · rw [hs]
    exact h
  · rw [hs]
    exact ⟨h.table.withStrategy h.table.sameBudget, h.started, h.unpacked, h.indexed,
      k + 1, hk.double⟩

/-- A thinning round keeps the spacing. -/
theorem Laying.thin (hstart : 0 < start) {x : StreamIndexer σ κ ThinningBudget}
    (h : Laying codec budget start most unpacked indexed x)
    (hask : ((CheckpointStrategy.thinningBudget rounds).shouldThin x.strategy x.context).1 = true)
    (hthin : x.index.thin.1 = true) {cp : Checkpoint κ}
    (hcp : x.index.thin.2.lastCheckpoint = some cp) :
    Laying codec budget start most unpacked indexed { x with
      strategy := ((CheckpointStrategy.thinningBudget rounds).shouldThin x.strategy x.context).2
      index := x.index.thin.2
      checkpointDataBytes := x.index.thin.2.checkpointDataBytes
      lastCheckpointPos := cp.uncompressedOffset } := by
  obtain ⟨k, hk⟩ := h.spaced
  obtain ⟨last, hlast, hpos⟩ := h.table.last
  have hw : 0 < 2 ^ k * (start + most) := Nat.zero_lt_of_lt (most_lt_spacing most hstart k)
  obtain ⟨hgaps, hback⟩ := StreamIndex.thin_near hw hk.gaps hthin hlast hcp
  have hreached := h.table.reached
  have htail := hk.tail
  have hindex : x.index.thin.2.indexedTo = x.index.indexedTo := by
    obtain ⟨cps, hcps⟩ := h.table.first
    obtain ⟨kept, heq, _⟩ := StreamIndex.thin_spec hcps hthin
    rw [heq]
  rcases shouldThin_started rounds h.started x.context with ⟨hno, _⟩ | ⟨_, hs⟩
  · rw [hno] at hask
    cases hask
  · have htable := h.table.thin (s := { x.strategy with interval := doubled x.strategy.interval })
      h.table.sameBudget hthin hcp
    rw [hs]
    refine ⟨htable, h.started, h.unpacked, hindex.trans h.indexed, k + 1, ?_⟩
    constructor
    · show doubled x.strategy.interval = _
      rw [hk.interval, doubled_interval]
    · rw [spacing_succ]
      exact hgaps
    · rw [spacing_succ]
      show x.unpackedPos - cp.uncompressedOffset + most < _
      omega

/-- Thinning goes through where the start is in the table. -/
theorem thinWhile_ok (impl : CheckpointStrategy ThinningBudget) :
    ∀ n {x : StreamIndexer σ κ ThinningBudget}, x.index.checkpoints.length ≤ n →
      (∃ cps, x.index.checkpoints = .start :: cps) → ∃ x', thinWhile impl x = .ok x' := by
  intro n
  induction n with
  | zero =>
    rintro x hlen ⟨cps, hcps⟩
    rw [hcps] at hlen
    exact absurd hlen (by simp)
  | succ n ih =>
    rintro x hlen ⟨cps, hcps⟩
    rw [thinWhile]
    simp only
    by_cases hask : (impl.shouldThin x.strategy x.context).1 = true
    · rw [if_pos hask]
      by_cases hthin : x.index.thin.1 = true
      · have hshort := StreamIndex.thin_length_lt x.index hthin
        obtain ⟨kept, heq, _⟩ := StreamIndex.thin_spec hcps hthin
        have hkept : x.index.thin.2.checkpoints = .start :: kept := by rw [heq]
        rw [dif_pos hthin]
        cases hlast : x.index.thin.2.lastCheckpoint with
        | none =>
          unfold StreamIndex.lastCheckpoint at hlast
          rw [hkept] at hlast
          exact absurd hlast (by simp)
        | some cp =>
          simp only
          apply ih
          · show x.index.thin.2.checkpoints.length ≤ n
            omega
          · exact ⟨kept, hkept⟩
      · rw [dif_neg hthin]
        exact ⟨_, rfl⟩
    · rw [if_neg hask]
      exact ⟨_, rfl⟩

theorem tryCheckpoint_ok (rounds : Nat → Nat → Nat → Nat) (notify : Bool)
    (halways : codec.Always)
    {x : StreamIndexer σ κ ThinningBudget} (h : Tabled codec budget x) :
    ∃ x', tryCheckpoint (.thinningBudget rounds) notify x = .ok x' := by
  obtain rfl := h.sameCodec
  obtain ⟨last, hlast, _⟩ := h.last
  obtain ⟨cps, hcps⟩ := h.first
  unfold tryCheckpoint
  rw [hlast]
  simp only
  split
  · exact ⟨x, rfl⟩
  · obtain ⟨cp, hcp, _⟩ := halways x.decompressor x.compressedPos x.unpackedPos
    rw [hcp]
    simp only
    cases notify <;>
      exact thinWhile_ok _ _ (Nat.le_refl _) ⟨cps ++ [cp], by
        show x.index.checkpoints ++ [cp] = _
        rw [hcps]
        rfl⟩

/-- Laying a checkpoint within its gap, and thinning, keeps the spacing. -/
theorem tryCheckpoint_spaced (halways : codec.Always) (hstart : 0 < start) {notify : Bool}
    {x x' : StreamIndexer σ κ ThinningBudget} (h : Tabled codec budget x)
    (hbegun : x.strategy.started = false → x.unpackedPos = 0) (hk : Spaced start most k 0 x)
    (hrun : tryCheckpoint (.thinningBudget rounds) notify x = .ok x') :
    Tabled codec budget x' ∧ (x'.strategy.started = false → x'.unpackedPos = 0) ∧
      x'.unpackedPos = x.unpackedPos ∧ x'.index.indexedTo = x.index.indexedTo ∧
      ∃ k, Spaced start most k most x' := by
  have hreached := h.reached
  rcases tryCheckpoint_cases h hrun with ⟨rfl, hhere | hnone⟩ | ⟨cp, hcp, hpast, hthin⟩
  · refine ⟨h, hbegun, rfl, rfl, k, hk.interval, hk.gaps, ?_⟩
    have hlt := most_lt_spacing most hstart k
    rw [hhere, Nat.sub_self, Nat.zero_add]
    exact hlt
  · obtain ⟨cp, hcp, _⟩ := halways x'.decompressor x'.compressedPos x'.unpackedPos
    rw [hcp] at hnone
    cases hnone
  · have hplace := halways.places _ _ _ _ hcp
    obtain ⟨last, hlast, hpos⟩ := h.last
    have hstarted : x.strategy.started = true := by
      by_contra hnot
      have hzero := hbegun (by simpa using hnot)
      omega
    have htail := hk.tail
    have hlt := most_lt_spacing most hstart k
    have hlaying : Laying codec budget start most x.unpackedPos x.index.indexedTo { x with
        checkpointDataBytes := x.checkpointDataBytes + cp.estimatedSize x.index.codec
        index := { x.index with checkpoints := x.index.checkpoints ++ [cp] }
        lastCheckpointPos := x.unpackedPos } := by
      refine ⟨h.push hpast hplace, hstarted, rfl, rfl, k, hk.interval, ?_, ?_⟩
      · refine List.isChain_append.mpr ⟨hk.gaps, List.IsChain.singleton cp, ?_⟩
        intro a ha b hb
        have hlast : x.index.checkpoints.getLast? = some last := hlast
        rw [hlast] at ha
        obtain rfl : last = a := Option.some.inj ha
        obtain rfl : cp = b := Option.some.inj hb
        unfold StreamIndex.Near
        omega
      · show x.unpackedPos - x.unpackedPos + most < _
        omega
    obtain ⟨y, hy, rfl, _⟩ := thinWhile_rule _
      (P := Laying codec budget start most x.unpackedPos x.index.indexedTo)
      (fun hx hask hthin hcp => hx.thin hstart hask hthin hcp) _ (Nat.le_refl _) hlaying hthin
    have hasked := hy.asked rounds
    exact ⟨hasked.table, fun hnot => absurd (hasked.started.symm.trans hnot) (by simp),
      hasked.unpacked, hasked.indexed, hasked.spaced⟩

/-- The invariant between steps. -/
structure Spread (codec : Codec σ κ) (budget start most : Nat)
    (x : StreamIndexer σ κ ThinningBudget) : Prop where
  table : Tabled codec budget x
  begun : x.strategy.started = false → x.unpackedPos = 0
  indexed : x.index.indexedTo ≤ x.unpackedPos
  spaced : ∃ k, Spaced start most k most x

theorem Spread.same {x x' : StreamIndexer σ κ ThinningBudget}
    (h : Spread codec budget start most x) (hsame : SameTable x x')
    (hindexed : x'.index.indexedTo ≤ x'.unpackedPos) : Spread codec budget start most x' := by
  obtain ⟨k, hk⟩ := h.spaced
  refine ⟨h.table.same hsame, ?_, hindexed, k, ?_, ?_, ?_⟩
  · rw [hsame.strategy, hsame.unpacked]
    exact h.begun
  · rw [hsame.strategy]
    exact hk.interval
  · rw [hsame.checkpoints]
    exact hk.gaps
  · rw [hsame.unpacked, hsame.last]
    exact hk.tail

/-- Before anything is decoded the start is all there is. -/
theorem Tabled.only_start {x : StreamIndexer σ κ ThinningBudget} (h : Tabled codec budget x)
    (hzero : x.unpackedPos = 0) : x.index.checkpoints = [.start] := by
  obtain ⟨cps, hcps⟩ := h.first
  cases cps with
  | nil => exact hcps
  | cons cp cps =>
    have hinc := h.increasing
    have hmost := h.most cp (by rw [hcps]; simp)
    have hreached := h.reached
    rw [hcps] at hinc
    have hlt := (List.pairwise_cons.mp hinc).1 cp List.mem_cons_self
    omega

/-- Covering the bytes of one decode call keeps the spacing. -/
theorem cover_spread (halways : codec.Always) (hstart : 0 < start)
    {x x₁ : StreamIndexer σ κ ThinningBudget} {result : DecompressResult} {d : σ}
    (h : Spread codec budget start most x) (hmost : result.produced.length ≤ most)
    (hrun : cover (.thinningBudget rounds) x.unpackedPos result (x.advance result d) = .ok x₁) :
    Spread codec budget start most x₁ := by
  obtain ⟨k, hk⟩ := h.spaced
  have hindexed := h.indexed
  have htable := h.table.advance result d
  have htail := hk.tail
  have hreached := h.table.reached
  have hunpacked : (x.advance result d).unpackedPos = x.unpackedPos + result.produced.length := rfl
  -- Where nothing was decoded nothing has changed.
  have hidle : result.produced.length = 0 → Spread codec budget start most (x.advance result d) := by
    intro hnone
    have hsame : (x.advance result d).unpackedPos = x.unpackedPos := by omega
    exact h.same ⟨rfl, rfl, rfl, rfl, hsame, rfl⟩ (by rw [hsame]; exact hindexed)
  rcases cover_cases hrun with ⟨hle, rfl⟩ | ⟨_, y, out, hy, _, rfl⟩
  · have hold : (x.advance result d).index.indexedTo = x.index.indexedTo := rfl
    exact hidle (by omega)
  · have hcovered : Tabled codec budget y ∧ (y.strategy.started = false → y.unpackedPos = 0) ∧
        ∃ k, Spaced start most k most y := by
      rcases hy with ⟨hnone, rfl⟩ | ⟨hsome, hy⟩
      · have hspread := hidle hnone
        exact ⟨hspread.table, hspread.begun, hspread.spaced⟩
      · have hstrategy : x.strategy.start rounds (x.advance result d).context =
            { x.strategy with started := true } := by
          apply start_started
          by_cases hstarted : x.strategy.started = true
          · exact .inl hstarted
          · right
            show x.index.checkpoints.length < 2
            rw [h.table.only_start (h.begun (by simpa using hstarted))]
            exact Nat.one_lt_two
        have hasked : Tabled codec budget { x.advance result d with
            strategy := { x.strategy with started := true } } :=
          htable.withStrategy h.table.sameBudget
        rcases hy with ⟨hno, rfl⟩ | ⟨_, htry⟩
        · have hshort : (x.advance result d).unpackedPos - x.lastCheckpointPos <
              x.strategy.interval := by
            have hno : decide ((x.strategy.start rounds (x.advance result d).context).interval ≤
              (x.advance result d).unpackedPos - x.lastCheckpointPos) = false := hno
            rw [hstrategy] at hno
            simpa using hno
          have hs : ((CheckpointStrategy.thinningBudget rounds).shouldCheckpoint
              (x.advance result d).strategy (x.advance result d).context).2 =
                { x.strategy with started := true } := hstrategy
          rw [hs]
          refine ⟨hasked, fun hnot => absurd hnot (by simp), k, hk.interval, hk.gaps, ?_⟩
          show (x.advance result d).unpackedPos - x.lastCheckpointPos + most < _
          have hinterval := hk.interval
          have hadd := interval_add_le start most k
          omega
        · have htry : tryCheckpoint (.thinningBudget rounds) true { x.advance result d with
              strategy := x.strategy.start rounds (x.advance result d).context } = .ok y := htry
          rw [hstrategy] at htry
          have hspaced : Spaced start most k 0 { x.advance result d with
              strategy := { x.strategy with started := true } } := by
            refine ⟨hk.interval, hk.gaps, ?_⟩
            show x.unpackedPos + result.produced.length - x.lastCheckpointPos + 0 < _
            omega
          obtain ⟨htable, hbegun, _, _, hk'⟩ := tryCheckpoint_spaced halways hstart hasked
            (fun hnot => absurd hnot (by simp)) hspaced htry
          exact ⟨htable, hbegun, hk'⟩
    obtain ⟨htable, hbegun, k', hk'⟩ := hcovered
    have hsame : SameTable y { y with
        outBuf := out.1
        outRead := out.2
        index := { y.index with indexedTo := y.unpackedPos } } := ⟨rfl, rfl, rfl, rfl, rfl, rfl⟩
    exact ⟨htable.same hsame, hbegun, Nat.le_refl _, k', hk'.interval, hk'.gaps, hk'.tail⟩

theorem cover_ok (halways : codec.Always) {before : Nat} {result : DecompressResult}
    {x : StreamIndexer σ κ ThinningBudget} (h : Tabled codec budget x) {f : Fault} :
    cover (.thinningBudget rounds) before result x ≠ .error f := by
  intro herror
  unfold cover at herror
  split at herror
  · simp only at herror
    by_cases hsome : 0 < result.bytesProduced
    · rw [if_pos hsome] at herror
      have hasked := h.withStrategy
        ((shouldCheckpoint_budget rounds x.strategy x.context).trans h.sameBudget)
      obtain ⟨y, hy⟩ := tryCheckpoint_ok rounds true halways hasked
      rw [hy] at herror
      split at herror <;> cases herror
    · rw [if_neg hsome] at herror
      cases herror
  · cases herror

/-- Every move of the caller keeps the spacing. -/
theorem kept_spread (rounds : Nat → Nat → Nat → Nat) (halways : codec.Always)
    (hstart : 0 < start)
    (hmost : ∀ s input r s', codec.decompress s input bufSize = .ok (r, s') →
      r.produced.length ≤ most) :
    Kept (.thinningBudget rounds) (fun _ => True) (Spread codec budget start most) where
  okState := fun _ _ _ => trivial
  withState := fun h => h.same ⟨rfl, rfl, rfl, rfl, rfl, rfl⟩ h.indexed
  complete := fun h => h.same ⟨rfl, rfl, rfl, rfl, rfl, rfl⟩ h.indexed
  covered := by
    intro x result d x₁ h _ hdecodes hrun
    have hdec := hdecodes.decodes
    rw [h.table.sameCodec] at hdec
    exact cover_spread halways hstart h (hmost _ _ _ _ hdec) hrun
  failed := by
    intro x result d f h _ _ hrun
    exact absurd hrun (cover_ok halways (h.table.advance result d))
  stopped := by
    intro x result d x₁ x₂ _ _ _ _ h₁ _ htry
    obtain ⟨k, hk⟩ := h₁.spaced
    have htail := hk.tail
    obtain ⟨htable, hbegun, hunpacked, hindexed, hk'⟩ :=
      tryCheckpoint_spaced halways hstart h₁.table h₁.begun
        ⟨hk.interval, hk.gaps, by omega⟩ htry
    exact ⟨htable, hbegun, by rw [hindexed, hunpacked]; exact h₁.indexed, hk'⟩
  provideData := fun _ h => h.same ⟨rfl, rfl, rfl, rfl, rfl, rfl⟩ h.indexed
  signalEof := fun h => h.same ⟨rfl, rfl, rfl, rfl, rfl, rfl⟩ h.indexed
  setStopAt := fun _ h => h.same ⟨rfl, rfl, rfl, rfl, rfl, rfl⟩ h.indexed
  setEmitOutput := fun _ h => h.same ⟨rfl, rfl, rfl, rfl, rfl, rfl⟩ h.indexed
  readOutput := by
    intro x len h
    have hindexed : (x.readOutput len).2.index = x.index := by
      unfold StreamIndexer.readOutput
      simp only
      split
      · rfl
      · split <;> rfl
    have hsame := readOutput_same x len
    exact h.same hsame (by rw [hindexed, hsame.unpacked]; exact h.indexed)

theorem new_spread {s : ThinningBudget} (hs : s.Built) {compressedLen : Option Nat}
    {x : StreamIndexer σ κ ThinningBudget} (hnew : new codec s compressedLen = .ok x) :
    Spread codec s.budget s.interval most x := by
  have htable := (new_tabled hnew).1
  obtain ⟨_, hpos, hle⟩ := hs.spec
  unfold new at hnew
  cases hcreate : codec.create with
  | error e =>
    rw [hcreate] at hnew
    cases hnew
  | ok d =>
    rw [hcreate] at hnew
    obtain rfl := Except.ok.inj hnew
    refine ⟨htable, fun _ => rfl, Nat.le_refl _, 0, ?_, List.IsChain.singleton _, ?_⟩
    · show s.interval = min (s.interval * 2 ^ 0) u64Max
      omega
    · show 0 - 0 + most < 2 ^ 0 * (s.interval + most)
      omega

/-- The checkpoints lie less than `w` apart, and so does everything decoded from the last
checkpoint before it. -/
structure Even (w : Nat) (x : StreamIndexer σ κ ThinningBudget) : Prop where
  gaps : x.index.checkpoints.IsChain fun a b => b.uncompressedOffset - a.uncompressedOffset < w
  tail : x.unpackedPos - x.lastCheckpointPos < w
  reads : ∀ o ≤ x.unpackedPos, ∃ i cp, x.index.bestCheckpointForOffset o = some (i, cp) ∧
    cp.uncompressedOffset ≤ o ∧ o - cp.uncompressedOffset < w

theorem Spaced.even (hstart : 0 < start) {x : StreamIndexer σ κ ThinningBudget}
    (h : Tabled codec budget x) (hk : Spaced start most k most x) :
    Even (2 ^ k * (start + most)) x := by
  have htail := hk.tail
  have hlt := most_lt_spacing most hstart k
  obtain ⟨cps, hcps⟩ := h.first
  obtain ⟨last, hlast, hpos⟩ := h.last
  have hreached := h.reached
  constructor
  · apply hk.gaps.imp
    intro a b hab
    unfold StreamIndex.Near at hab
    omega
  · omega
  · intro o ho
    have hsorted : x.index.Sorted := ⟨⟨_, cps, hcps, rfl⟩, h.increasing.imp Nat.le_of_lt⟩
    obtain ⟨i, cp, hbest, his⟩ := StreamIndex.bestCheckpointForOffset_isBest hsorted o
    have hgaps := hk.gaps
    rw [hcps] at hgaps
    obtain ⟨near, hmem, hle, hnear⟩ := StreamIndex.exists_near cps .start hgaps o (Nat.zero_le o) (by
      intro last' hlast'
      rw [← hcps] at hlast'
      obtain rfl : last' = last := Option.some.inj (hlast'.symm.trans hlast)
      omega)
    rw [← hcps] at hmem
    have hmost := his.best near hmem hle
    have hcp := his.le
    exact ⟨i, cp, hbest, hcp, by omega⟩

/-- In every state an indexer under a thinning budget gets to, `k` doublings of the interval
later, the gaps are less than `2 ^ k` times the first interval and one decode call, and a read
decodes no more than that again. -/
theorem thinningBudget_covers_evenly (rounds : Nat → Nat → Nat → Nat)
    (halways : codec.Always) {most : Nat}
    (hmost : ∀ s input r s', codec.decompress s input bufSize = .ok (r, s') →
      r.produced.length ≤ most)
    {s : ThinningBudget} (hs : s.Built) (compressedLen : Option Nat)
    {x₀ x : StreamIndexer σ κ ThinningBudget} (hnew : new codec s compressedLen = .ok x₀)
    (h : Reached (.thinningBudget rounds) (fun _ => True) x₀ x) :
    (∃ k, x.strategy.interval = min (s.interval * 2 ^ k) u64Max ∧
      Even (2 ^ k * (s.interval + most)) x) ∧
    ∀ k, x.strategy.interval = s.interval * 2 ^ k → x.strategy.interval < u64Max →
      Even (2 ^ k * (s.interval + most)) x := by
  obtain ⟨_, hpos, _⟩ := hs.spec
  have hspread := (kept_spread rounds halways hpos hmost).reached (new_spread hs hnew) h
  obtain ⟨k, hk⟩ := hspread.spaced
  have heven := hk.even hpos hspread.table
  refine ⟨⟨k, hk.interval, heven⟩, ?_⟩
  intro k' hinterval hunsaturated
  have hsame : s.interval * 2 ^ k = s.interval * 2 ^ k' := by
    have hk := hk.interval
    omega
  rw [← Nat.pow_right_injective (Nat.le_refl 2) (Nat.eq_of_mul_eq_mul_left hpos hsame)]
  exact heven

theorem thinningBudget_covers_evenly_copy :
    let x₀ : StreamIndexer NoneDecompressor Empty ThinningBudget :=
      withParts .new (.new NoneDecompressor.codec none) ((ThinningBudget.new 20).withMinInterval 1)
        .needInput 0 0
    let x := (stepOnce (.thinningBudget fun _ _ _ => 0) (x₀.provideData [1, 2, 3])).2
    ∃ k, x.strategy.interval = min (1 * 2 ^ k) u64Max ∧ Even (2 ^ k * (1 + bufSize)) x := by
  intro x₀ x
  have halways : NoneDecompressor.codec.Always := by
    intro s c u
    exact ⟨_, rfl, rfl⟩
  have hmost : ∀ s input r s', NoneDecompressor.codec.decompress s input bufSize = .ok (r, s') →
      r.produced.length ≤ bufSize := by
    intro s input r s' hdec
    obtain ⟨rfl, _⟩ := Prod.mk.inj (Except.ok.inj hdec)
    show (s.decompress input bufSize).1.produced.length ≤ bufSize
    unfold NoneDecompressor.decompress
    split
    · exact Nat.zero_le _
    · simp only [List.length_take]
      omega
  exact (thinningBudget_covers_evenly _ halways hmost (.withMinInterval 20 1) none rfl
    (.round (.provideData .start [1, 2, 3]) trivial)).1

end StreamIndexer
end Iluvatar
