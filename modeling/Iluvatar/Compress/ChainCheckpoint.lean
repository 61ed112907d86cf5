/-
Checkpoints of a chain.

A chain's checkpoint keeps the stages' own checkpoints, the bytes in flight and the end
flags.  Restored, each stage stands where its checkpoint says, which for every stage but
the first is where it stood, so the bytes in flight still fit; the first is fed again from
its own checkpoint's offset.  The restored chain stands in the plan of the same chain, so
its own checkpoints are exact in turn.
-/
import Iluvatar.Compress.ChainRuns
import Mathlib.Data.List.Forall2
import Mathlib.Data.List.TakeWhile

namespace Iluvatar

open Sansio

variable {σ κ : Type}

/-- A checkpoint the stage gives restores it, freshly built, to where the checkpoint says,
with everything before `u` made. -/
def Plan.Saves (codec : Codec σ κ) (fresh : σ) (p : Plan σ) : Prop :=
  ∀ s c u cp, p.At s c u → codec.checkpoint s c u = .ok (some cp) →
    cp.uncompressedOffset = u ∧ ∃ s', codec.restore fresh cp = .ok s' ∧ p.At s' cp.compressedOffset u

/-- The states reached from the fresh one on the byte string `X`, at byte `c` of it and
with `u` bytes made, by calls and by restoring a checkpoint given on the way. -/
inductive Reached (codec : Codec σ κ) (fresh : σ) (X : List Byte) : σ → Nat → Nat → Prop
  | fresh : Reached codec fresh X fresh 0 0
  | call {s s' : σ} {c u room : Nat} {input : List Byte} {r : DecompressResult} :
      Reached codec fresh X s c u → input <+: X.drop c → (input = [] → X.length ≤ c) → 0 < room →
      codec.decompress s input room = .ok (r, s') →
      Reached codec fresh X s' (c + r.bytesConsumed) (u + r.bytesProduced)
  | restored {s s' : σ} {c u : Nat} {cp : Checkpoint κ} :
      Reached codec fresh X s c u → codec.checkpoint s c u = .ok (some cp) →
      codec.restore fresh cp = .ok s' →
      Reached codec fresh X s' cp.compressedOffset cp.uncompressedOffset

/-- Every state reached stands where the plan says. -/
theorem Plan.Keeps.reached {codec : Codec σ κ} {fresh : σ} {p : Plan σ}
    (hp : p.Keeps codec.decompress) (hsaves : p.Saves codec fresh) (hfresh : p.At fresh 0 0)
    {s : σ} {c u : Nat} (h : Reached codec fresh p.input s c u) : p.At s c u := by
  induction h with
  | fresh => exact hfresh
  | call _ hinput hend hroom hcall ih =>
    rcases hp.decompress _ _ _ _ _ ih hinput hend hroom with ⟨e, hfail, _⟩ | ⟨r, s', hok, hr⟩
    · exact absurd (hcall.symm.trans hfail) (by simp)
    · obtain ⟨rfl, rfl⟩ := Prod.mk.inj (Except.ok.inj (hcall.symm.trans hok))
      exact hr.stands
  | restored _ hcheckpoint hrestore ih =>
    obtain ⟨hu, s', hback, hat⟩ := hsaves _ _ _ _ ih hcheckpoint
    obtain rfl := Except.ok.inj (hrestore.symm.trans hback)
    rw [hu]
    exact hat

namespace ChainDecompressor

variable {codec : Codec σ κ}

/-- The chain as a codec. -/
def chain (codec : Codec σ κ) (stages : List σ) (fuel : Nat) :
    Codec (ChainDecompressor σ) (ChainCheckpointState κ) where
  create := new stages
  decompress := decompress codec.decompress fuel
  checkpoint := checkpoint codec
  restore := restore codec
  estimatedSize s := (s.stages.map (Checkpoint.estimatedSize codec)).sum +
    (s.pending.map List.length).sum + s.ended.length

/-- What the checkpoints of all the stages consist of. -/
theorem stageCheckpoints_cons {inner : Bool} {s : Slot σ} {rest : List (Slot σ)}
    {cps : List (Checkpoint κ)}
    (h : stageCheckpoints codec inner (s :: rest) = .ok (some cps)) :
    ∃ cp after, cps = cp :: after ∧ codec.checkpoint s.stage s.totalIn s.totalOut = .ok (some cp) ∧
      (inner = true → cp.compressedOffset = s.totalIn) ∧
      stageCheckpoints codec true rest = .ok (some after) := by
  rw [stageCheckpoints] at h
  cases hown : codec.checkpoint s.stage s.totalIn s.totalOut with
  | error e =>
    rw [hown] at h
    cases h
  | ok o =>
    cases o with
    | none =>
      rw [hown] at h
      cases h
    | some cp =>
      rw [hown] at h
      by_cases hexact : (!inner || cp.compressedOffset == s.totalIn) = true
      · cases hafter : stageCheckpoints codec true rest with
        | error e => simp [hexact, hafter] at h
        | ok o =>
          cases o with
          | none => simp [hexact, hafter] at h
          | some after =>
            simp only [hexact, hafter, if_true] at h
            obtain rfl := Option.some.inj (Except.ok.inj h)
            refine ⟨cp, after, rfl, rfl, ?_, rfl⟩
            intro hinner
            rw [hinner] at hexact
            simpa using hexact
      · simp [hexact] at h

theorem stageCheckpoints_length {rest : List (Slot σ)} :
    ∀ {inner : Bool} {cps : List (Checkpoint κ)},
      stageCheckpoints codec inner rest = .ok (some cps) → cps.length = rest.length := by
  induction rest with
  | nil =>
    intro inner cps h
    obtain rfl := Option.some.inj (Except.ok.inj h)
    rfl
  | cons s rest ih =>
    intro inner cps h
    obtain ⟨cp, after, rfl, _, _, hafter⟩ := stageCheckpoints_cons h
    rw [List.length_cons, List.length_cons, ih hafter]

theorem pendingOf_length (s : Slot σ) (rest : List (Slot σ)) :
    (pendingOf s rest).length = rest.length := by
  induction rest generalizing s with
  | nil => rfl
  | cons t rest ih => rw [pendingOf, List.length_cons, List.length_cons, ih]

/-- A slot restored from what its checkpoint kept of it. -/
def Slot.back (s : Slot σ) (stage : σ) (cp : Checkpoint κ) (buf : List Byte) : Slot σ :=
  { stage, totalIn := cp.compressedOffset, totalOut := cp.uncompressedOffset, ended := s.ended
    buf, read := 0 }

theorem Slot.back_on {p : Plan σ} {s : Slot σ} {stage : σ} {cp : Checkpoint κ} (hs : s.On p)
    (hu : cp.uncompressedOffset = s.totalOut) (hat : p.At stage cp.compressedOffset s.totalOut)
    (buf : List Byte) : (s.back stage cp buf).On p where
  stands := by
    show p.At stage cp.compressedOffset cp.uncompressedOffset
    rw [hu]
    exact hat
  ended := fun hended => hu.trans (hs.ended hended)

theorem restoreSlots_cons {f : Slot σ} {rest slots : List (Slot σ)} {cp : Checkpoint κ}
    {cps : List (Checkpoint κ)} {pending : List (List Byte)} {s : Slot σ} {endeds : List Bool}
    {stage : σ} (h : codec.restore f.stage cp = .ok stage)
    (hrest : restoreSlots codec rest cps pending.tail endeds = .ok slots) :
    restoreSlots codec (f :: rest) (cp :: cps) pending (s.ended :: endeds) =
      .ok (s.back stage cp (pending.headD []) :: slots) := by
  rw [restoreSlots, h]
  simp only [hrest]
  rfl

/-- The slots restored from a checkpoint of slots that stand do so too. -/
theorem restoreSlots_standing {s : Slot σ} {p : Plan σ} {rest : List (Slot σ)}
    {plans : List (Plan σ)} (h : Standing s p rest plans) :
    ∀ {inner : Bool} {cps : List (Checkpoint κ)} {f : σ} {fs : List σ},
      stageCheckpoints codec inner (s :: rest) = .ok (some cps) →
      List.Forall₂ (Plan.Saves codec) (f :: fs) (p :: plans) →
      ∃ s' rest' cp after, cps = cp :: after ∧
        restoreSlots codec ((f :: fs).map Slot.fresh) cps (pendingOf s rest)
          ((s :: rest).map Slot.ended) = .ok (s' :: rest') ∧
        Standing s' p rest' plans ∧ s'.totalIn = cp.compressedOffset ∧
        (inner = true → s'.totalIn = s.totalIn) ∧
        (lastOf s' rest').totalOut = (lastOf s rest).totalOut := by
  induction h with
  | @last s p hs =>
    intro inner cps f fs hcps hsaves
    obtain ⟨cp, after, rfl, hown, hexact, hafter⟩ := stageCheckpoints_cons hcps
    cases hsaves with
    | cons hsave hnone =>
      cases hnone
      obtain ⟨hu, stage, hrestore, hat⟩ := hsave _ _ _ _ hs.stands hown
      obtain rfl := Option.some.inj (Except.ok.inj hafter)
      exact ⟨s.back stage cp [], [], cp, [], rfl, restoreSlots_cons hrestore rfl,
        .last (Slot.back_on hs hu hat _), rfl, hexact, hu⟩
  | @link s t p q rest plans hs hholds hrest ih =>
    intro inner cps f fs hcps hsaves
    obtain ⟨cp, after, rfl, hown, hexact, hafter⟩ := stageCheckpoints_cons hcps
    cases hsaves with
    | cons hsave hothers =>
      cases hothers with
      | @cons g _ gs _ hg hgs =>
        obtain ⟨hu, stage, hrestore, hat⟩ := hsave _ _ _ _ hs.stands hown
        obtain ⟨t', rest', _, _, _, hback, hstanding, _, hsame, hlast⟩ := ih hafter (.cons hg hgs)
        refine ⟨s.back stage cp s.unread, t' :: rest', cp, after, rfl,
          restoreSlots_cons hrestore hback, ?_, rfl, hexact, hlast⟩
        refine .link (Slot.back_on hs hu hat _) ⟨?_, ?_, ?_⟩ hstanding
        · show s.unread.drop 0 = seg p.output t'.totalIn cp.uncompressedOffset
          rw [hsame rfl, hu, List.drop_zero, hholds.unread]
        · show t'.totalIn ≤ cp.uncompressedOffset
          rw [hsame rfl, hu]
          exact hholds.pos_le
        · show 0 < s.unread.length ∨ s.unread = [] ∧ 0 = 0
          cases hunread : s.unread with
          | nil => exact .inr ⟨rfl, rfl⟩
          | cons b bs => exact .inl (Nat.succ_pos _)

theorem Standing.length_eq {s : Slot σ} {p : Plan σ} {rest : List (Slot σ)}
    {plans : List (Plan σ)} (h : Standing s p rest plans) : rest.length = plans.length := by
  induction h with
  | last _ => rfl
  | link _ _ _ ih => rw [List.length_cons, List.length_cons, ih]

/-- What a chain's checkpoint holds. -/
theorem checkpoint_eq_some {ch : ChainDecompressor σ} {c u : Nat}
    {cp : Checkpoint (ChainCheckpointState κ)} (h : checkpoint codec ch c u = .ok (some cp)) :
    ∃ first cps, stageCheckpoints codec false (ch.first :: ch.rest) = .ok (some (first :: cps)) ∧
      cp = { compressedOffset := first.compressedOffset, bitOffset := first.bitOffset
             uncompressedOffset := u
             state := some
               { stages := first :: cps, pending := pendingOf ch.first ch.rest
                 ended := (ch.first :: ch.rest).map Slot.ended } } := by
  rw [checkpoint] at h
  cases hcps : stageCheckpoints codec false (ch.first :: ch.rest) with
  | error e => simp [hcps] at h
  | ok o =>
    cases o with
    | none => simp [hcps] at h
    | some cps =>
      cases cps with
      | nil => simp [hcps] at h
      | cons first cps =>
        simp only [hcps] at h
        exact ⟨first, cps, rfl, (Option.some.inj (Except.ok.inj h)).symm⟩

/-- A chain of stages whose checkpoints are exact gives exact checkpoints. -/
theorem whole_saves {stages : List σ} {p : Plan σ} {plans : List (Plan σ)}
    (hsaves : List.Forall₂ (Plan.Saves codec) stages (p :: plans))
    {ch : ChainDecompressor σ} (hfresh : ch.first :: ch.rest = stages.map Slot.fresh) (fuel : Nat) :
    (whole p plans).Saves (chain codec stages fuel) ch := by
  rintro x c u cp ⟨hstanding, hin, hout⟩ hcheckpoint
  obtain ⟨first, cps, hcps, rfl⟩ := checkpoint_eq_some (c := c) hcheckpoint
  cases hsaves with
  | @cons f _ fs _ hf hfs =>
    obtain ⟨s', rest', cp, after, hcons, hback, hstanding', hfirst, _, hlast⟩ :=
      restoreSlots_standing hstanding hcps (.cons hf hfs)
    obtain ⟨rfl, rfl⟩ := List.cons.inj hcons
    have hrest := hstanding.length_eq
    have hfs' : fs.length = plans.length := hfs.length_eq
    have hchain : ch.rest.length = fs.length := by
      have hlen := congrArg List.length hfresh
      rw [List.length_map, List.length_cons, List.length_cons] at hlen
      omega
    have hlength := stageCheckpoints_length hcps
    rw [List.length_cons] at hlength
    refine ⟨rfl, { first := s', rest := rest' }, ?_, hstanding', hfirst, ?_⟩
    · have hshape : ¬ ((first :: cps).length ≠ ch.rest.length + 1 ∨
          (pendingOf x.first x.rest).length ≠ ch.rest.length + 1 - 1 ∨
          ((x.first :: x.rest).map Slot.ended).length ≠ ch.rest.length + 1) := by
        rw [pendingOf_length, List.length_map, List.length_cons, List.length_cons]
        rw [List.length_cons] at hlength
        omega
      simp only [chain, restore, if_neg hshape]
      rw [hfresh, hback]
      rfl
    · exact hlast.trans hout

/-- From every state of a chain reached by calls and by restoring its own checkpoints, a
checkpoint it gives restores a freshly built chain, and this one and the one it was taken
from end with the same bytes, all that is left, where every stage ends cleanly. -/
theorem checkpoint_exact {stages : List σ} {Fs : List (List Byte → List Byte × Bool)}
    (hstages : List.Forall₂
      (MeansAnd codec.decompress fun s p => p.Saves codec s) stages Fs)
    (htwo : 2 ≤ stages.length) (X : List Byte) :
    ∃ ch, new stages = .ok ch ∧ ∃ bound, ∀ fuel, bound ≤ fuel →
      ∀ s c u, Reached (chain codec stages fuel) ch X s c u →
      ∀ cp, checkpoint codec s c u = .ok (some cp) →
        cp.uncompressedOffset = u ∧ cp.compressedOffset ≤ X.length ∧
        ∃ s', restore codec ch cp = .ok s' ∧
          Reached (chain codec stages fuel) ch X s' cp.compressedOffset u ∧
          ∀ cuts cuts', ∃ e e',
            EndsAs (asCall (decompress codec.decompress fuel)) (X.drop c) cuts s e ∧
            EndsAs (asCall (decompress codec.decompress fuel)) (X.drop cp.compressedOffset) cuts' s' e' ∧
            ((compose Fs X).2 = true → e.outcome = none ∧ e'.outcome = none) ∧
            (e.outcome = none → e.output = (compose Fs X).1.drop u) ∧
            (e'.outcome = none → e'.output = (compose Fs X).1.drop u) ∧
            e.output <+: (compose Fs X).1.drop u ∧ e'.output <+: (compose Fs X).1.drop u := by
  obtain ⟨ch, p, q, plans, hnew, hline, hat, hin, houtput, hclean, hsaves, hfresh⟩ :=
    fresh_chain hstages htwo X
  refine ⟨ch, hnew, size p (q :: plans) + 1, ?_⟩
  intro fuel hfuel s c u hreached cp hcheckpoint
  have hkeeps := whole_keeps hline hfuel
  have hsave := whole_saves hsaves hfresh fuel
  have hinput : (whole p (q :: plans)).input = X := hin
  have hstands : (whole p (q :: plans)).At s c u := by
    rw [← hinput] at hreached
    exact Plan.Keeps.reached hkeeps hsave hat hreached
  obtain ⟨hu, s', hrestore, hat'⟩ := hsave s c u cp hstands hcheckpoint
  refine ⟨hu, ?_, s', hrestore, ?_, ?_⟩
  · have hwithin := (hkeeps.within _ _ _ hat').1
    rwa [hinput] at hwithin
  · have hback := Reached.restored hreached hcheckpoint hrestore
    rwa [hu] at hback
  · intro cuts cuts'
    obtain ⟨e, hends, he⟩ := hkeeps.ends hstands cuts
    obtain ⟨e', hends', he'⟩ := hkeeps.ends hat' cuts'
    rw [hinput] at hends hends'
    rw [← houtput]
    exact ⟨e, e', hends, hends', fun hall => ⟨he.clean (hclean.mpr hall), he'.clean (hclean.mpr hall)⟩,
      he.all, he'.all, he.output, he'.output⟩

/-- Passthrough checkpoints are exact. -/
theorem passthrough_saves (s : NoneDecompressor) (X : List Byte) :
    Plan.Saves NoneDecompressor.codec s
      { input := X, output := X, clean := True, At := NoneDecompressor.At X } := by
  rintro d c u cp hat hcheckpoint
  obtain rfl := Option.some.inj (Except.ok.inj hcheckpoint)
  exact ⟨rfl, _, rfl, rfl, rfl, hat.same, hat.within⟩

theorem passthrough_means_saves :
    MeansAnd NoneDecompressor.codec.decompress (fun s p => p.Saves NoneDecompressor.codec s)
      NoneDecompressor.new (fun X => (X, true)) := by
  intro X
  exact ⟨passthroughPlan X, rfl, rfl, by simp [passthroughPlan], passthroughPlan_keeps X,
    passthroughPlan_fresh X, passthrough_saves _ X⟩

/-- Two passthrough stages, with two of three bytes in flight between them. -/
theorem checkpoint_exact_passthrough :
    ∃ ch, new [NoneDecompressor.new, NoneDecompressor.new] = .ok ch ∧ ∃ bound, ∀ fuel, bound ≤ fuel →
      ∃ mid cp s', decompress NoneDecompressor.codec.decompress fuel ch [1, 2, 3] 1 =
          .ok ({ bytesConsumed := 3, produced := [1], status := .continue }, mid) ∧
        mid.first.unread = [2, 3] ∧ checkpoint NoneDecompressor.codec mid 3 1 = .ok (some cp) ∧
        restore NoneDecompressor.codec ch cp = .ok s' ∧
        ∃ e, EndsAs (asCall (decompress NoneDecompressor.codec.decompress fuel))
          (([1, 2, 3] : List Byte).drop cp.compressedOffset) (fun _ => (0, 1)) s' e ∧
          e.output = [2, 3] := by
  let stages := [NoneDecompressor.new, NoneDecompressor.new]
  let start : ChainDecompressor NoneDecompressor :=
    { first := Slot.fresh NoneDecompressor.new, rest := [Slot.fresh NoneDecompressor.new] }
  obtain ⟨ch, hnew, bound, hall⟩ := @checkpoint_exact _ _ NoneDecompressor.codec stages _
    (.cons passthrough_means_saves (.cons passthrough_means_saves .nil)) (by decide) [1, 2, 3]
  obtain rfl : start = ch := Except.ok.inj hnew
  refine ⟨start, rfl, bound + 2, ?_⟩
  intro fuel hfuel
  obtain ⟨k, rfl⟩ : ∃ k, fuel = k + 2 := ⟨fuel - 2, by omega⟩
  obtain ⟨mid, hcall, hmid, cp, hcp⟩ : ∃ mid, (chain NoneDecompressor.codec stages (k + 2)).decompress start [1, 2, 3] 1 =
      .ok ({ bytesConsumed := 3, produced := [1], status := .continue }, mid) ∧ mid.first.unread = [2, 3] ∧
        ∃ cp, checkpoint NoneDecompressor.codec mid 3 1 = .ok (some cp) :=
    ⟨_, rfl, rfl, _, rfl⟩
  have hreached : Reached (chain NoneDecompressor.codec stages (k + 2)) start [1, 2, 3] mid 3 1 :=
    .call .fresh (List.prefix_refl _) (fun h => absurd h (List.cons_ne_nil 1 [2, 3])) Nat.one_pos hcall
  obtain ⟨_, _, s', hrestore, _, hends⟩ := hall (k + 2) (by omega) mid 3 1 hreached cp hcp
  obtain ⟨_, e, _, hends, hclean, _, hout, _⟩ := hends (fun _ => (0, 1)) (fun _ => (0, 1))
  exact ⟨mid, cp, s', hcall, hmid, hcp, hrestore, e, hends, hout (hclean rfl).2⟩

end ChainDecompressor

/-- Two stages.  One copies what it is given up to a bad byte, where it fails.  The other ends after `size` bytes,
or where its input does. -/
inductive Sample where
  | copy
  | first (size passed : Nat)
  deriving DecidableEq, Repr

namespace Sample

/-- The bytes before the first bad one. -/
def good (input : List Byte) : List Byte := input.takeWhile (· != 1)

def fails : Fault := .error (.decompressionError "bad byte")

def passes (out : List Byte) (status : DecompressStatus) : DecompressResult :=
  { bytesConsumed := out.length, produced := out, status }

def decompress : Decompress Sample
  | .copy, input, room =>
    if input = [] then .ok (passes [] .streamEnd, .copy)
    else if good input = [] then .error fails
    else .ok (passes ((good input).take room) .continue, .copy)
  | .first size passed, input, room =>
    let out := (input.take (size - passed)).take room
    .ok (passes out (if input = [] ∨ size ≤ passed + out.length then .streamEnd else .continue),
      .first size (passed + out.length))

/-- A checkpoint keeps the stage as it is. -/
def codec : Codec Sample Sample where
  create := .ok .copy
  decompress := decompress
  checkpoint s c u := .ok (some { compressedOffset := c, bitOffset := 0, uncompressedOffset := u, state := some s })
  restore s cp := .ok (cp.state.getD s)
  estimatedSize _ := 0

def copyPlan (X : List Byte) : Plan Sample where
  input := X
  output := good X
  clean := good X = X
  At s c u := s = .copy ∧ u = c ∧ c ≤ (good X).length

def firstPlan (size : Nat) (X : List Byte) : Plan Sample where
  input := X
  output := X.take size
  clean := True
  At s c u := s = .first size u ∧ u = c ∧ c ≤ (X.take size).length

theorem good_length_le (X : List Byte) : (good X).length ≤ X.length := List.takeWhile_prefix _ |>.length_le

theorem good_cons (b : Byte) (X : List Byte) : good (b :: X) = if b = 1 then [] else b :: good X := by
  rw [good, List.takeWhile_cons]
  by_cases hbad : b = 1 <;> simp [hbad, good]

theorem good_eq_self_iff {X : List Byte} : good X = X ↔ 1 ∉ X := by
  unfold good
  rw [List.takeWhile_eq_self_iff]
  simp only [bne_iff_ne]
  exact ⟨fun hall hbad => hall 1 hbad rfl, fun hnone b hb hbad => hnone (hbad ▸ hb)⟩

theorem good_append_bad {X : List Byte} (h : 1 ∉ X) : good (X ++ [1]) = X := by
  unfold good
  have hall : ∀ b ∈ X, (b != 1) = true := by
    intro b hb
    rw [bne_iff_ne]
    rintro rfl
    exact h hb
  rw [List.takeWhile_append_of_pos hall]
  simp

theorem good_prefix {input X : List Byte} (h : input <+: X) : good input <+: good X := by
  obtain ⟨rest, rfl⟩ := h
  induction input with
  | nil => exact List.nil_prefix
  | cons b input ih =>
    rw [List.cons_append, good_cons, good_cons]
    by_cases hbad : b = 1
    · rw [if_pos hbad]
      exact List.nil_prefix
    · rw [if_neg hbad, if_neg hbad]
      exact List.cons_prefix_cons.mpr ⟨rfl, ih⟩

theorem good_drop {c : Nat} : ∀ {X : List Byte}, c ≤ (good X).length → good (X.drop c) = (good X).drop c := by
  induction c with
  | zero => exact fun _ => rfl
  | succ c ih =>
    intro X hle
    cases X with
    | nil => rfl
    | cons b X =>
      rw [good_cons] at hle ⊢
      by_cases hbad : b = 1
      · rw [if_pos hbad] at hle
        exact absurd hle (Nat.not_succ_le_zero c)
      · rw [if_neg hbad] at hle ⊢
        exact ih (Nat.le_of_succ_le_succ hle)

theorem copy_keeps (X : List Byte) : (copyPlan X).Keeps decompress where
  within := fun _ c _ h => ⟨Nat.le_trans h.2.2 (good_length_le X), h.2.1 ▸ h.2.2⟩
  decompress := by
    rintro s c u input room ⟨rfl, rfl, hle⟩ hinput hend hroom
    have hahead : good input <+: (good X).drop u := good_drop hle ▸ good_prefix hinput
    by_cases hnone : input = []
    · refine .inr ⟨_, _, if_pos hnone, Nat.zero_le _, Nat.zero_le _, List.nil_prefix, ⟨rfl, rfl, hle⟩, fun _ => ?_,
        fun h => by cases h⟩
      exact Nat.le_antisymm hle (Nat.le_trans (good_length_le X) (hend hnone))
    · by_cases hbad : good input = []
      · refine .inl ⟨_, (if_neg hnone).trans (if_pos hbad), fun hclean => hnone ?_⟩
        have hnot := good_eq_self_iff.mp hclean
        have hgood : good input = input :=
          good_eq_self_iff.mpr fun hmem => hnot (List.mem_of_mem_drop (hinput.mem hmem))
        rw [← hgood, hbad]
      · have hlen : 0 < ((good input).take room).length := by
          have hpos := List.length_pos_iff.mpr hbad
          rw [List.length_take]
          omega
        have hout := (List.take_prefix room (good input)).trans hahead
        refine .inr ⟨_, _, (if_neg hnone).trans (if_neg hbad), ?_, List.length_take_le _ _, hout, ⟨rfl, rfl, ?_⟩,
          fun h => (by cases h), fun _ => .inl hlen⟩
        · exact Nat.le_trans (List.length_take_le' _ _) (good_length_le input)
        · have hle' := hout.length_le
          rw [List.length_drop] at hle'
          show u + ((good input).take room).length ≤ _
          omega

theorem first_keeps (size : Nat) (X : List Byte) : (firstPlan size X).Keeps decompress where
  within := fun _ c _ h => ⟨Nat.le_trans h.2.2 (List.length_take_le' _ _), h.2.1 ▸ h.2.2⟩
  decompress := by
    rintro s c u input room ⟨rfl, rfl, hle⟩ hinput hend hroom
    have hout : (input.take (size - u)).take room <+: (X.take size).drop u := by
      rw [List.drop_take]
      exact (List.take_prefix _ _).trans (hinput.take _)
    have hle' := hout.length_le
    rw [List.length_drop] at hle'
    refine .inr ⟨_, _, rfl, ?_, List.length_take_le _ _, hout, ⟨rfl, rfl, ?_⟩, fun hended => ?_, fun hgoes => ?_⟩
    · exact Nat.le_trans (List.length_take_le' _ _) (List.length_take_le' _ _)
    · show u + ((input.take (size - u)).take room).length ≤ _
      omega
    · show u + ((input.take (size - u)).take room).length = (X.take size).length
      have hall : input = [] ∨ size ≤ u + ((input.take (size - u)).take room).length := by
        by_contra hmore
        rw [passes, if_neg hmore] at hended
        cases hended
      have hsize : (X.take size).length = min size X.length := List.length_take
      rw [hsize] at hle hle' ⊢
      rcases hall with hnone | hfull
      · have hover := hend hnone
        have hover : X.length ≤ u := hover
        omega
      · omega
    · left
      show 0 < ((input.take (size - u)).take room).length
      have hmore : ¬ (input = [] ∨ size ≤ u + ((input.take (size - u)).take room).length) := by
        intro hall
        rw [passes, if_pos hall] at hgoes
        cases hgoes
      rw [not_or] at hmore
      have hpos := List.length_pos_iff.mpr hmore.1
      have hfew := hmore.2
      rw [List.length_take, List.length_take] at hfew ⊢
      omega

/-- Restoring a checkpoint gives the state that it was taken in. -/
theorem restores (s fresh : Sample) (c u : Nat) {cp : Checkpoint Sample} (h : codec.checkpoint s c u = .ok (some cp)) :
    codec.restore fresh cp = .ok s := by
  obtain rfl := Option.some.inj (Except.ok.inj h)
  rfl

theorem saves {fresh : Sample} {p : Plan Sample} : p.Saves codec fresh := by
  rintro s c u cp hat hcheckpoint
  have hrestore := restores s fresh c u hcheckpoint
  obtain rfl := Option.some.inj (Except.ok.inj hcheckpoint)
  exact ⟨rfl, s, hrestore, hat⟩

theorem copy_means : ChainDecompressor.MeansAnd codec.decompress (fun s p => p.Saves codec s) .copy
    (fun X => (good X, decide (good X = X))) := fun X =>
  ⟨copyPlan X, rfl, rfl, by simp [copyPlan], copy_keeps X, ⟨rfl, rfl, Nat.zero_le _⟩, saves⟩

theorem first_means (size : Nat) : ChainDecompressor.MeansAnd codec.decompress (fun s p => p.Saves codec s)
    (.first size 0) (fun X => (X.take size, true)) := fun X =>
  ⟨firstPlan size X, rfl, rfl, by simp [firstPlan], first_keeps size X, ⟨rfl, rfl, Nat.zero_le _⟩, saves⟩

end Sample

namespace ChainDecompressor

/-- A copying stage before one that ends after as many bytes as a buffer holds. -/
def copyThenEnd : ChainDecompressor Sample :=
  { first := Slot.fresh .copy, rest := [Slot.fresh (.first stageBuf 0)] }

/-- The second stage when it passed ten bytes on. -/
def passedTen : Slot Sample :=
  { stage := .first stageBuf 10, totalIn := 10, totalOut := 10, ended := false, buf := [], read := 0 }

/-- The copying stage with `g` for its buffer, of which `read` bytes are read, before the one that passed ten. -/
def tenPassed (g : List Byte) (read : Nat) : ChainDecompressor Sample :=
  { first := { stage := .copy, totalIn := stageBuf, totalOut := stageBuf, ended := false, buf := g, read }
    rest := [passedTen] }

/-- Both stages with nothing between them, when the second passed all its bytes on. -/
def allPassed : ChainDecompressor Sample :=
  { first := { stage := .copy, totalIn := stageBuf, totalOut := stageBuf, ended := false, buf := [], read := 0 }
    rest :=
      [{ stage := .first stageBuf stageBuf, totalIn := stageBuf, totalOut := stageBuf, ended := true, buf := []
         read := 0 }] }

/-- A loop that one round brings to its end. -/
theorem loop_once {σ : Type} {D : Decompress σ} {input : List Byte} {room fuel : Nat} {x y : Calling σ}
    (hgoes : ¬ (x.chain.finished || decide (room ≤ x.output.length)))
    (hround : round D input room x = .ok (y, true))
    (hends : y.chain.finished || decide (room ≤ y.output.length)) :
    loop D input room (fuel + 2) x = .ok y := by
  rw [loop, if_neg hgoes, hround]
  exact (if_pos rfl).trans (if_pos hends)

/-- A stage that is called. -/
theorem turn_called {σ : Type} {D : Decompress σ} {prev s : Slot σ} {space : Nat} {r : DecompressResult} {stage : σ}
    (hgoes : s.ended = false) (hunread : prev.unread ≠ []) (hspace : space ≠ 0)
    (h : D s.stage prev.unread space = .ok (r, stage)) : turn D prev s space = .ok (Turn.of s r stage) := by
  have hwaits : ¬ (prev.unread.isEmpty && !prev.ended) := by
    rw [List.isEmpty_eq_false_iff.mpr hunread]
    exact Bool.false_ne_true
  rw [turn, hgoes, if_neg Bool.false_ne_true, if_neg hwaits, if_neg hspace, Slot.call, h]

section

variable {g : List Byte} (hgood : 1 ∉ g) (hlength : g.length = stageBuf) (fuel : Nat)

include hgood hlength in
/-- The first call fills the buffer and passes ten bytes of it on. -/
theorem decompress_first :
    decompress Sample.decompress (fuel + 2) copyThenEnd (g ++ [1]) 10 =
      .ok ({ bytesConsumed := stageBuf, produced := g.take 10, status := .continue }, tenPassed g 10) := by
  have hsome : g ≠ [] := by
    rintro rfl
    cases hlength
  have hcopy : Sample.decompress .copy (g ++ [1]) stageBuf = .ok (Sample.passes g .continue, .copy) := by
    rw [Sample.decompress, if_neg (by simp), Sample.good_append_bad hgood, if_neg hsome, ← hlength, List.take_length]
  have hten : (g.take 10).length = 10 := by
    rw [List.length_take, hlength]
    rfl
  have hpass : Sample.decompress (.first stageBuf 0) g 10 =
      .ok (Sample.passes (g.take 10) .continue, .first stageBuf 10) := by
    have hmore : ¬ (g = [] ∨ stageBuf ≤ 0 + 10) := by
      rw [not_or]
      exact ⟨hsome, by decide⟩
    rw [Sample.decompress, Nat.sub_zero, ← hlength, List.take_length, hten, hlength, if_neg hmore]
  have havail : (!(g ++ [1]).isEmpty || (g ++ [1]).isEmpty) = true := by simp
  have hintake : intake Sample.decompress (Slot.fresh .copy) (g ++ [1]) (g ++ [1]) =
      .ok (Turn.of (Slot.fresh .copy) (Sample.passes g .continue) .copy) := by
    rw [intake, if_pos (by decide), if_pos havail, Slot.call]
    exact hcopy ▸ rfl
  have hturn : turn Sample.decompress
      ((Turn.of (Slot.fresh Sample.copy) (Sample.passes g .continue) Sample.copy).slot.push g)
      (Slot.fresh (.first stageBuf 0)) 10 =
        .ok (Turn.of (Slot.fresh (.first stageBuf 0)) (Sample.passes (g.take 10) .continue) (.first stageBuf 10)) :=
    turn_called rfl hsome (by decide) hpass
  have hround : round Sample.decompress (g ++ [1]) 10 { chain := copyThenEnd, inPos := 0, output := [] } =
      .ok ({ chain := tenPassed g 10, inPos := stageBuf, output := g.take 10 }, true) := by
    rw [round_ok hintake (pump_one hturn)]
    simp [Turn.of, Slot.push, Slot.called, Slot.taken, Slot.fresh, Sample.passes, moved, tenPassed, passedTen,
      DecompressResult.bytesProduced, hten, hlength, stageBuf]
  have hgoes : ¬ (copyThenEnd.finished || decide (10 ≤ ([] : List Byte).length)) := Bool.false_ne_true
  unfold decompress
  rw [loop_once hgoes hround (by simp [hten])]
  rfl

include hlength in
/-- Where the buffer is full the copying stage is not called, and the other comes to its end. -/
theorem decompress_full :
    ∃ t, decompress Sample.decompress (fuel + 2) (tenPassed g 10) [1] stageBuf =
      .ok ({ bytesConsumed := 0, produced := g.drop 10, status := .streamEnd }, t) := by
  have hlen : (g.drop 10).length = stageBuf - 10 := by rw [List.length_drop, hlength]
  have hsome : g.drop 10 ≠ [] := by
    intro h
    rw [h] at hlen
    exact absurd hlen (by decide)
  have hintake : intake Sample.decompress (tenPassed g 10).first [1] [1] = .ok (Turn.skip (tenPassed g 10).first) := by
    have hfull : ¬ (!(tenPassed g 10).first.ended && decide ((tenPassed g 10).first.buf.length < stageBuf)) := by
      simp [tenPassed, hlength]
    rw [intake, if_neg hfull]
  have hpass : Sample.decompress (.first stageBuf 10) (g.drop 10) stageBuf =
      .ok (Sample.passes (g.drop 10) .streamEnd, .first stageBuf stageBuf) := by
    have htake : ((g.drop 10).take (stageBuf - 10)).take stageBuf = g.drop 10 := by
      rw [← hlen, List.take_length, List.take_of_length_le (by rw [hlen]; decide)]
    rw [Sample.decompress, htake, hlen, if_pos (.inr (by decide))]
    rfl
  have hturn : turn Sample.decompress ((Turn.skip (tenPassed g 10).first).slot.push []) passedTen stageBuf =
      .ok (Turn.of passedTen (Sample.passes (g.drop 10) .streamEnd) (.first stageBuf stageBuf)) := by
    have hunread : ((Turn.skip (tenPassed g 10).first).slot.push []).unread = g.drop 10 := by
      simp [Turn.skip, Slot.push, Slot.unread, tenPassed]
    exact turn_called rfl (hunread ▸ hsome) (by decide) (hunread.symm ▸ hpass)
  have hround : round Sample.decompress [1] stageBuf { chain := tenPassed g 10, inPos := 0, output := [] } =
      .ok ({ chain := allPassed, inPos := 0, output := g.drop 10 }, true) := by
    rw [round_ok hintake (pump_one hturn)]
    simp [Turn.of, Turn.skip, Slot.push, Slot.called, Slot.taken, Sample.passes, moved, tenPassed, passedTen, allPassed,
      DecompressResult.bytesProduced, hlength, stageBuf]
  have hgoes : ¬ ((tenPassed g 10).finished || decide (stageBuf ≤ ([] : List Byte).length)) := Bool.false_ne_true
  refine ⟨allPassed, ?_⟩
  unfold decompress
  rw [loop_once hgoes hround rfl]
  rfl

include hlength in
/-- Where it is not, the copying stage is called first. -/
theorem decompress_room :
    decompress Sample.decompress (fuel + 2) (tenPassed (g.drop 10) 0) [1] stageBuf = .error Sample.fails := by
  have hspace : (g.drop 10).length < stageBuf := by
    rw [List.length_drop, hlength]
    decide
  have hintake : intake Sample.decompress (tenPassed (g.drop 10) 0).first [1] [1] = .error Sample.fails := by
    rw [intake, if_pos (by rw [tenPassed, decide_eq_true hspace]; rfl)]
    rfl
  have hround : round Sample.decompress [1] stageBuf
      { chain := tenPassed (g.drop 10) 0, inPos := 0, output := [] } = .error Sample.fails := by
    rw [round, List.drop_zero, hintake]
  have hgoes : ¬ ((tenPassed (g.drop 10) 0).finished || decide (stageBuf ≤ ([] : List Byte).length)) :=
    Bool.false_ne_true
  unfold decompress
  rw [loop, if_neg hgoes, hround]

end

/-- The checkpoints of both stages restore the very state they are taken in.  Fed as many good bytes as a buffer
holds and a bad one, the chain gives ten of them and a checkpoint.  Given the bad byte next, it reports the end
with all the rest; the one restored from the checkpoint fails with nothing. -/
theorem outcome_differs :
    List.Forall₂ (MeansAnd Sample.codec.decompress fun s p => p.Saves Sample.codec s)
      [.copy, .first stageBuf 0]
      [fun X => (Sample.good X, decide (Sample.good X = X)), fun X => (X.take stageBuf, true)] ∧
    (∀ s fresh c u cp, Sample.codec.checkpoint s c u = .ok (some cp) → Sample.codec.restore fresh cp = .ok s) ∧
    ∃ ch, new [Sample.copy, .first stageBuf 0] = .ok ch ∧ ∀ fuel, ∃ mid cp s',
      decompress Sample.decompress (fuel + 2) ch (List.replicate stageBuf 0 ++ [1]) 10 =
          .ok ({ bytesConsumed := stageBuf, produced := List.replicate 10 0, status := .continue }, mid) ∧
        checkpoint Sample.codec mid stageBuf 10 = .ok (some cp) ∧ cp.compressedOffset = stageBuf ∧
        restore Sample.codec ch cp = .ok s' ∧
        (∃ t, decompress Sample.decompress (fuel + 2) mid [1] stageBuf =
          .ok ({ bytesConsumed := 0, produced := List.replicate (stageBuf - 10) 0, status := .streamEnd }, t)) ∧
        decompress Sample.decompress (fuel + 2) s' [1] stageBuf = .error Sample.fails := by
  refine ⟨.cons Sample.copy_means (.cons (Sample.first_means stageBuf) .nil), Sample.restores, _, rfl, fun fuel => ?_⟩
  have hgood : (1 : Byte) ∉ List.replicate stageBuf 0 := by
    intro hmem
    exact absurd (List.eq_of_mem_replicate hmem) (by decide)
  have hlength : (List.replicate stageBuf (0 : Byte)).length = stageBuf := List.length_replicate
  have hfirst := decompress_first hgood hlength fuel
  have hfull := decompress_full hlength fuel
  have hroom := decompress_room hlength fuel
  rw [List.drop_replicate] at hfull hroom
  rw [List.take_replicate] at hfirst
  have hrestore : restore Sample.codec copyThenEnd
      { compressedOffset := stageBuf, bitOffset := 0, uncompressedOffset := 10
        state := some
          { stages := [⟨stageBuf, 0, stageBuf, some .copy⟩, ⟨10, 0, 10, some (.first stageBuf 10)⟩]
            pending := [(List.replicate stageBuf 0).drop 10]
            ended := [false, false] } } = .ok (tenPassed (List.replicate (stageBuf - 10) 0) 0) := by
    rw [List.drop_replicate]
    rfl
  exact ⟨tenPassed _ 10, _, _, hfirst, rfl, rfl, hrestore, hfull, hroom⟩

end ChainDecompressor
end Iluvatar
