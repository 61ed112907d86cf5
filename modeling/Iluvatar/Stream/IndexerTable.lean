/-
The checkpoint table a `StreamIndexer` lays.

A table starts at offset 0, rises strictly, and every checkpoint in it is exact.
Laying a checkpoint at the decoder's own position and thinning the table keep it
so, together with the running counts the indexer holds beside it.
-/
import Iluvatar.Compress.Contract
import Iluvatar.Library.Segment
import Iluvatar.Stream.Indexer

namespace Iluvatar

variable {σ κ τ : Type}

namespace StreamIndex

/-- The checkpoints start at offset 0, rise strictly, and are exact. -/
structure Table (codec : Codec σ κ) (At : σ → Nat → Nat → Prop) (index : StreamIndex σ κ) :
    Prop where
  sameCodec : index.codec = codec
  first : ∃ cp cps, index.checkpoints = cp :: cps ∧ cp.uncompressedOffset = 0
  increasing : index.checkpoints.Pairwise fun a b => a.uncompressedOffset < b.uncompressedOffset
  exact : ∀ cp ∈ index.checkpoints, cp.Exact codec At

variable {codec : Codec σ κ} {At : σ → Nat → Nat → Prop} {index : StreamIndex σ κ}

theorem Table.sorted (h : Table codec At index) : index.Sorted :=
  ⟨h.first, h.increasing.imp Nat.le_of_lt⟩

/-- The last checkpoint of a rising table is furthest into the stream. -/
theorem Table.last (h : Table codec At index) :
    ∃ cp, index.lastCheckpoint = some cp ∧ cp ∈ index.checkpoints ∧
      ∀ cp' ∈ index.checkpoints, cp'.uncompressedOffset ≤ cp.uncompressedOffset := by
  obtain ⟨cp, cps, hcps, _⟩ := h.first
  have hne : index.checkpoints ≠ [] := by rw [hcps]; simp
  refine ⟨index.checkpoints.getLast hne, List.getLast?_eq_getLast_of_ne_nil hne,
    List.getLast_mem hne, ?_⟩
  have hsplit := List.dropLast_append_getLast hne
  have hinc := h.increasing
  rw [← hsplit, List.pairwise_append] at hinc
  intro cp' hmem
  rw [← hsplit, List.mem_append, List.mem_singleton] at hmem
  rcases hmem with hmem | rfl
  · exact Nat.le_of_lt (hinc.2.2 cp' hmem _ (List.mem_singleton_self _))
  · exact Nat.le_refl _

/-- A checkpoint past all others extends the table. -/
theorem Table.push (h : Table codec At index) {cp : Checkpoint κ} (hexact : cp.Exact codec At)
    (hpast : ∀ cp' ∈ index.checkpoints, cp'.uncompressedOffset < cp.uncompressedOffset) :
    Table codec At { index with checkpoints := index.checkpoints ++ [cp] } where
  sameCodec := h.sameCodec
  first := by
    obtain ⟨first, cps, hcps, hzero⟩ := h.first
    exact ⟨first, cps ++ [cp], by rw [hcps]; rfl, hzero⟩
  increasing := by
    refine List.pairwise_append.mpr ⟨h.increasing, List.pairwise_singleton _ _, ?_⟩
    intro a ha b hb
    rw [List.mem_singleton.mp hb]
    exact hpast a ha
  exact := by
    intro cp' hmem
    rcases List.mem_append.mp hmem with hmem | hmem
    · exact h.exact cp' hmem
    · rw [List.mem_singleton.mp hmem]
      exact hexact

theorem keepAt_sublist (n : Nat) (cps : List (Checkpoint κ)) :
    ∀ i, (keepAt n i cps).Sublist cps := by
  induction cps with
  | nil => intro i; exact List.Sublist.refl _
  | cons cp cps ih =>
    intro i
    rw [keepAt]
    split
    · exact (ih (i + 1)).cons_cons cp
    · exact (ih (i + 1)).cons cp

/-- Thinning only drops checkpoints, and never the first. -/
theorem thin_spec {first : Checkpoint κ} {cps : List (Checkpoint κ)}
    (hcps : index.checkpoints = first :: cps) (h : index.thin.1 = true) :
    ∃ kept, index.thin.2 = { index with checkpoints := first :: kept } ∧ kept.Sublist cps := by
  match cps, hcps with
  | [], hcps => simp [thin, hcps] at h
  | [cp₁], hcps => exact ⟨[], by simp [thin, hcps], List.nil_sublist _⟩
  | cp₁ :: cp₂ :: cps, hcps =>
    refine ⟨keepAt (cps.length + 3) 1 (cp₁ :: cp₂ :: cps), ?_, keepAt_sublist _ _ _⟩
    have hhead : keepAt (cps.length + 3) 0 (first :: cp₁ :: cp₂ :: cps) =
        first :: keepAt (cps.length + 3) 1 (cp₁ :: cp₂ :: cps) := by
      rw [keepAt, if_pos (.inl rfl)]
    rw [← hhead]
    simp [thin, hcps]

theorem Table.thin (h : Table codec At index) (hthin : index.thin.1 = true) :
    Table codec At index.thin.2 ∧
      index.thin.2 = { index with checkpoints := index.thin.2.checkpoints } ∧
      ∀ cp ∈ index.thin.2.checkpoints, cp ∈ index.checkpoints := by
  obtain ⟨first, cps, hcps, hzero⟩ := h.first
  obtain ⟨kept, heq, hsub⟩ := thin_spec hcps hthin
  have hsub' : (first :: kept).Sublist index.checkpoints := by
    rw [hcps]
    exact hsub.cons_cons first
  rw [heq]
  exact ⟨⟨h.sameCodec, ⟨first, kept, rfl, hzero⟩, h.increasing.sublist hsub',
    fun cp hmem => h.exact cp (hsub'.subset hmem)⟩, rfl, fun cp hmem => hsub'.subset hmem⟩

end StreamIndex

namespace StreamIndexer

variable {codec : Codec σ κ} {packed plain : List Byte} {At : σ → Nat → Nat → Prop}

/-- The table an indexer has laid, and the counts it keeps of it. -/
structure Laid (codec : Codec σ κ) (At : σ → Nat → Nat → Prop) (x : StreamIndexer σ κ τ) :
    Prop where
  table : x.index.Table codec At
  last : ∃ cp, x.index.lastCheckpoint = some cp ∧ cp.uncompressedOffset = x.lastCheckpointPos
  reached : x.lastCheckpointPos ≤ x.unpackedPos
  bytes : x.checkpointDataBytes = x.index.checkpointDataBytes

/-- `x'` differs from `x` in its checkpoints and strategy only. -/
def Relaid (x x' : StreamIndexer σ κ τ) : Prop :=
  x' = { x with
    strategy := x'.strategy
    index := { x.index with checkpoints := x'.index.checkpoints }
    checkpointDataBytes := x'.checkpointDataBytes
    lastCheckpointPos := x'.lastCheckpointPos }

theorem Relaid.trans {x₁ x₂ x₃ : StreamIndexer σ κ τ} (h : Relaid x₁ x₂) (h' : Relaid x₂ x₃) :
    Relaid x₁ x₃ := by
  rw [Relaid] at h h' ⊢
  rw [h', h]

theorem thinWhile_laid (impl : CheckpointStrategy τ) :
    ∀ (n : Nat) (x : StreamIndexer σ κ τ), x.index.checkpoints.length ≤ n → Laid codec At x →
      ∃ x', thinWhile impl x = .ok x' ∧ Laid codec At x' ∧ Relaid x x' := by
  intro n
  induction n with
  | zero =>
    intro x hlen h
    obtain ⟨cp, cps, hcps, _⟩ := h.table.first
    rw [hcps] at hlen
    exact absurd hlen (by simp)
  | succ n ih =>
    intro x hlen h
    rw [thinWhile]
    have hstop : ∃ x', (.ok { x with strategy := (impl.shouldThin x.strategy x.context).2 } :
        Except Fault (StreamIndexer σ κ τ)) = .ok x' ∧ Laid codec At x' ∧ Relaid x x' :=
      ⟨_, rfl, ⟨h.table, h.last, h.reached, h.bytes⟩, rfl⟩
    simp only
    by_cases hask : (impl.shouldThin x.strategy x.context).1 = true
    · rw [if_pos hask]
      by_cases hthin : x.index.thin.1 = true
      · rw [dif_pos hthin]
        obtain ⟨htable, hsame, hmem⟩ := h.table.thin hthin
        obtain ⟨cp, hlast, hin, _⟩ := htable.last
        obtain ⟨last, hlast₀, hle⟩ := h.last
        obtain ⟨last', hlast', _, hmost⟩ := h.table.last
        obtain rfl : last' = last := Option.some.inj (hlast'.symm.trans hlast₀)
        have hbefore := hmost cp (hmem cp hin)
        have hreached := h.reached
        simp only [hlast]
        have hshort := StreamIndex.thin_length_lt x.index hthin
        obtain ⟨x', hrun, hlaid, hrel⟩ := ih { x with
            strategy := (impl.shouldThin x.strategy x.context).2
            index := x.index.thin.2
            checkpointDataBytes := x.index.thin.2.checkpointDataBytes
            lastCheckpointPos := cp.uncompressedOffset } (by
            show x.index.thin.2.checkpoints.length ≤ n
            omega)
          ⟨htable, ⟨cp, hlast, rfl⟩, by show cp.uncompressedOffset ≤ x.unpackedPos; omega, rfl⟩
        refine ⟨x', hrun, hlaid, ?_⟩
        refine Relaid.trans ?_ hrel
        show _ = _
        rw [hsame]
      · rw [dif_neg hthin]
        exact hstop
    · rw [if_neg hask]
      exact hstop

/-- Laying a checkpoint where the decoder stands keeps the table. -/
theorem tryCheckpoint_laid (impl : CheckpointStrategy τ) (notify : Bool)
    (hC : Obeys codec packed plain At) {x : StreamIndexer σ κ τ} (h : Laid codec At x)
    (hstands : At x.decompressor x.compressedPos x.unpackedPos) :
    ∃ x', tryCheckpoint impl notify x = .ok x' ∧ Laid codec At x' ∧ Relaid x x' := by
  obtain rfl := h.table.sameCodec
  obtain ⟨last, hlast, hpos⟩ := h.last
  rw [tryCheckpoint, hlast]
  simp only
  by_cases hhere : x.unpackedPos = x.lastCheckpointPos ∧ last.uncompressedOffset = x.unpackedPos
  · rw [if_pos hhere]
    exact ⟨x, rfl, h, rfl⟩
  · rw [if_neg hhere]
    obtain ⟨o, hcheckpoint, hexact⟩ := hC.checkpoint _ _ _ hstands
    rw [hcheckpoint]
    cases o with
    | none => exact ⟨x, rfl, h, rfl⟩
    | some cp =>
      obtain ⟨hoffset, hexact⟩ := hexact cp rfl
      have hreached := h.reached
      have hpast : ∀ cp' ∈ x.index.checkpoints,
          cp'.uncompressedOffset < cp.uncompressedOffset := by
        intro cp' hmem
        obtain ⟨last', hlast', _, hmost⟩ := h.table.last
        obtain rfl : last' = last := Option.some.inj (hlast'.symm.trans hlast)
        have := hmost cp' hmem
        omega
      have hlaid : ∀ strategy : τ, Laid x.index.codec At { x with
          strategy := strategy
          checkpointDataBytes := x.checkpointDataBytes + cp.estimatedSize x.index.codec
          index := { x.index with checkpoints := x.index.checkpoints ++ [cp] }
          lastCheckpointPos := x.unpackedPos } := by
        intro strategy
        refine ⟨h.table.push hexact hpast, ⟨cp, ?_, hoffset⟩, Nat.le_refl _, ?_⟩
        · exact List.getLast?_concat
        · show x.checkpointDataBytes + cp.estimatedSize x.index.codec = _
          rw [h.bytes]
          simp [StreamIndex.checkpointDataBytes]
      have hrel : ∀ strategy : τ, Relaid x { x with
          strategy := strategy
          checkpointDataBytes := x.checkpointDataBytes + cp.estimatedSize x.index.codec
          index := { x.index with checkpoints := x.index.checkpoints ++ [cp] }
          lastCheckpointPos := x.unpackedPos } := fun _ => rfl
      cases notify with
      | false =>
        obtain ⟨x', hthin, hlaid', hrel'⟩ :=
          thinWhile_laid impl _ _ (Nat.le_refl _) (hlaid x.strategy)
        exact ⟨x', hthin, hlaid', (hrel _).trans hrel'⟩
      | true =>
        obtain ⟨x', hthin, hlaid', hrel'⟩ := thinWhile_laid impl _ _ (Nat.le_refl _) (hlaid _)
        exact ⟨x', hthin, hlaid', (hrel _).trans hrel'⟩

end StreamIndexer
end Iluvatar
