/-
A chain of stages that keep their plans keeps the plan of their composition.

The loop of one call goes on until the last stage has ended, the caller's output is full
or the caller's input is used up, because every pass but the last moves something.  The
chain is then one more stage, and what holds of every feeding of a stage holds of it.
-/
import Iluvatar.Compress.ChainStanding
import Iluvatar.Compress.None

namespace Iluvatar
namespace ChainDecompressor

open Sansio

variable {σ : Type} {D : Decompress σ}

/-- The turn of stage 0. -/
theorem intake_turned {p : Plan σ} {s : Slot σ} (hp : p.Keeps D) (hs : s.On p)
    {input avail : List Byte} (havail : avail <+: p.input.drop s.totalIn)
    (hend : input = [] → p.input.length ≤ s.totalIn) :
    (∃ e, intake D s input avail = .error (.error e) ∧ ¬ p.clean) ∨
    ∃ t, intake D s input avail = .ok t ∧
      Turned p s avail.length (stageBuf - s.buf.length) t ∧
      (t.progress = false →
        t.slot.ended = true ∨ stageBuf ≤ s.buf.length ∨ avail = [] ∧ input ≠ []) := by
  by_cases hready : (!s.ended && decide (s.buf.length < stageBuf)) = true
  · by_cases hgiven : (!avail.isEmpty || input.isEmpty) = true
    · have hcalled : intake D s input avail = s.call D avail (stageBuf - s.buf.length) := by
        rw [intake, if_pos hready, if_pos hgiven]
      have hspace : s.buf.length < stageBuf := by
        rw [Bool.and_eq_true, decide_eq_true_iff] at hready
        exact hready.2
      have hover : avail = [] → p.input.length ≤ s.totalIn := by
        intro hnil
        rw [hnil] at hgiven
        exact hend (by simpa using hgiven)
      rw [hcalled]
      rcases s.call_turned hp hs havail hover (Nat.sub_pos_of_lt hspace) with
        ⟨e, hcall, hdirty⟩ | ⟨t, hcall, ht, hidle⟩
      · exact .inl ⟨e, hcall, hdirty⟩
      · exact .inr ⟨t, hcall, ht, fun hstill => .inl (hidle hstill)⟩
    · refine .inr ⟨Turn.skip s, by rw [intake, if_pos hready, if_neg hgiven], Turned.skip hs _ _, ?_⟩
      intro _
      rw [Bool.or_eq_true, not_or] at hgiven
      exact .inr (.inr ⟨by simpa using hgiven.1, by simpa using hgiven.2⟩)
  · refine .inr ⟨Turn.skip s, by rw [intake, if_neg hready], Turned.skip hs _ _, ?_⟩
    intro _
    cases hended : s.ended with
    | true => exact .inl hended
    | false =>
      rw [hended] at hready
      exact .inr (.inl (by simpa using hready))

theorem Standing.last_on {s : Slot σ} {p : Plan σ} {rest : List (Slot σ)} {plans : List (Plan σ)}
    (h : Standing s p rest plans) : (lastOf s rest).On (lastPlan p plans) := by
  induction h with
  | last hs => exact hs
  | link _ _ _ ih => exact ih

theorem Line.last_keeps {p : Plan σ} {plans : List (Plan σ)} (h : Line D p plans) :
    (lastPlan p plans).Keeps D := by
  induction h with
  | last hp => exact hp
  | link _ _ _ ih => exact ih

/-- A call of the chain at `c`, `u` under way. -/
structure Under (p : Plan σ) (plans : List (Plan σ)) (c u : Nat) (input : List Byte) (room : Nat)
    (x : Calling σ) : Prop where
  standing : Standing x.chain.first p x.chain.rest plans
  totalIn : x.chain.first.totalIn = c + x.inPos
  totalOut : (lastOf x.chain.first x.chain.rest).totalOut = u + x.output.length
  output : x.output <+: (lastPlan p plans).output.drop u
  inPos_le : x.inPos ≤ input.length
  output_le : x.output.length ≤ room

/-- What the stages have left to read and to make during a call. -/
def Calling.todo (x : Calling σ) (p : Plan σ) (plans : List (Plan σ)) : Nat :=
  ChainDecompressor.todo x.chain.first p x.chain.rest plans

section Call

variable {p q : Plan σ} {plans : List (Plan σ)} {c u room : Nat} {input : List Byte}

theorem round_ok {x : Calling σ} {y : Turn σ} {z : Pumped σ}
    (h : intake D x.chain.first input (input.drop x.inPos) = .ok y)
    (hz : pump D (y.slot.push y.made) x.chain.rest (room - x.output.length) = .ok z) :
    round D input room x =
      .ok ({ chain := { first := z.first, rest := z.rest }, inPos := x.inPos + y.taken
             output := x.output ++ z.made }, y.progress || z.progress) := by
  rw [round, h]
  simp only [hz]

/-- One pass of the loop. -/
theorem round_under (hline : Line D p (q :: plans)) (hinput : input <+: p.input.drop c)
    (hend : input = [] → p.input.length ≤ c) {x : Calling σ}
    (hx : Under p (q :: plans) c u input room x) (hroom : x.output.length < room) :
    (∃ e, round D input room x = .error (.error e) ∧ ¬ ∀ y ∈ p :: q :: plans, y.clean) ∨
    ∃ y progress, round D input room x = .ok (y, progress) ∧
      Under p (q :: plans) c u input room y ∧
      y.todo p (q :: plans) + progress.toNat ≤ x.todo p (q :: plans) ∧
      (progress = false → y.chain.finished = true ∨ y.inPos = input.length ∧ input ≠ []) := by
  obtain ⟨⟨first, slots⟩, inPos, output⟩ := x
  obtain ⟨hstanding, htotalIn, htotalOut, hout, hpos, hfit⟩ := hx
  replace hpos : inPos ≤ input.length := hpos
  replace hroom : output.length < room := hroom
  cases hline with
  | link hp hlink hafter =>
    cases hstanding with
    | @link _ t _ _ rest _ hs hholds hrest =>
      have havail : input.drop inPos <+: p.input.drop first.totalIn := by
        obtain ⟨more, hmore⟩ := hinput
        refine ⟨more, ?_⟩
        rw [htotalIn]
        show _ = p.input.drop (c + inPos)
        rw [← List.drop_drop, ← hmore, List.drop_append_of_le_length hpos]
      have hover : input = [] → p.input.length ≤ first.totalIn := by
        intro hnil
        have := hend hnil
        have : first.totalIn = c + inPos := htotalIn
        omega
      rcases intake_turned hp hs havail hover with ⟨e, hfail, hdirty⟩ | ⟨y, hintake, hy, hidle⟩
      · refine .inl ⟨e, by rw [round, hfail], fun hall => hdirty (hall p (List.mem_cons_self ..))⟩
      · rcases pump_passed (room - output.length) hp hlink hafter
          (Slot.push_on hy.on y.made) (hy.push hholds) hrest with ⟨e, hpump, hdirty⟩ | ⟨z, hpump, hz⟩
        · refine .inl ⟨e, ?_, fun hall => hdirty fun w hw => hall w (List.mem_cons_of_mem _ hw)⟩
          rw [round, hintake]
          simp only [hpump]
        · have htaken := hy.taken_le
          rw [List.length_drop] at htaken
          have hmade := hz.made_le
          have hlast : (lastOf (y.slot.push y.made) (t :: rest)).totalOut = u + output.length := htotalOut
          refine .inr ⟨_, _, round_ok hintake hpump, ⟨?_, ?_, ?_, ?_, ?_, ?_⟩, ?_, ?_⟩
          · exact hz.standing
          · have hmoved : (y.slot.push y.made).totalIn = first.totalIn + y.taken := hy.totalIn
            have hbefore : first.totalIn = c + inPos := htotalIn
            show z.first.totalIn = c + (inPos + y.taken)
            rw [hz.totalIn, hmoved, hbefore, Nat.add_assoc]
          · show (lastOf z.first z.rest).totalOut = u + (output ++ z.made).length
            rw [hz.totalOut, hlast, List.length_append, Nat.add_assoc]
          · refine Plan.append_prefix_drop hout ?_
            have := hz.made
            rwa [hlast] at this
          · show inPos + y.taken ≤ input.length
            omega
          · show (output ++ z.made).length ≤ room
            rw [List.length_append]
            omega
          · have hless : p.left y.slot.totalIn y.slot.totalOut + y.progress.toNat ≤
                p.left first.totalIn first.totalOut := hy.less
            have hpassed : todo z.first p z.rest (q :: plans) + z.progress.toNat ≤
                todo (y.slot.push y.made) p (t :: rest) (q :: plans) := hz.less
            have hor : (y.progress || z.progress).toNat ≤ y.progress.toNat + z.progress.toNat := by
              cases y.progress <;> cases z.progress <;> decide
            have hpush : todo (y.slot.push y.made) p (t :: rest) (q :: plans) =
                p.left y.slot.totalIn y.slot.totalOut + todo t q rest plans := rfl
            show todo z.first p z.rest (q :: plans) + (y.progress || z.progress).toNat ≤
              p.left first.totalIn first.totalOut + todo t q rest plans
            omega
          · intro hstill
            obtain ⟨hfirst, hothers⟩ := (Bool.or_eq_false_iff).mp hstill
            rcases hz.idle hothers with hdone | hfull | ⟨hempty, hgoing⟩
            · exact .inl hdone
            · exact absurd hfull (by show ¬ room - output.length = 0; exact Nat.sub_ne_zero_of_lt hroom)
            · have hnil : first.buf = [] := by
                have hpushed : y.slot.buf ++ y.made = [] := hempty
                rw [hy.buf] at hpushed
                exact (List.append_eq_nil_iff.mp hpushed).1
              rcases hidle hfirst with hended | hspace | ⟨hused, hnonempty⟩
              · exact absurd (hgoing.symm.trans hended) (by simp)
              · rw [hnil, List.length_nil] at hspace
                exact absurd hspace (by decide)
              · refine .inr ⟨?_, hnonempty⟩
                have hlen := congrArg List.length hused
                rw [List.length_drop, List.length_nil] at hlen
                show inPos + y.taken = input.length
                omega

/-- The loop of one call. -/
theorem loop_under (hline : Line D p (q :: plans)) (hinput : input <+: p.input.drop c)
    (hend : input = [] → p.input.length ≤ c) :
    ∀ fuel (x : Calling σ), Under p (q :: plans) c u input room x → x.todo p (q :: plans) < fuel →
      (∃ e, loop D input room fuel x = .error (.error e) ∧ ¬ ∀ y ∈ p :: q :: plans, y.clean) ∨
      ∃ y, loop D input room fuel x = .ok y ∧ Under p (q :: plans) c u input room y ∧
        (y.chain.finished = true ∨ y.output.length = room ∨ y.inPos = input.length ∧ input ≠ []) := by
  intro fuel
  induction fuel with
  | zero =>
    intro x _ hlt
    exact absurd hlt (Nat.not_lt_zero _)
  | succ fuel ih =>
    intro x hx hlt
    by_cases hdone : (x.chain.finished || decide (room ≤ x.output.length)) = true
    · refine .inr ⟨x, by rw [loop, if_pos hdone], hx, ?_⟩
      rw [Bool.or_eq_true, decide_eq_true_iff] at hdone
      rcases hdone with hfinished | hfull
      · exact .inl hfinished
      · exact .inr (.inl (Nat.le_antisymm hx.output_le hfull))
    · have hroom : x.output.length < room := by
        rw [Bool.or_eq_true, decide_eq_true_iff, not_or] at hdone
        omega
      rcases round_under hline hinput hend hx hroom with
        ⟨e, hround, hdirty⟩ | ⟨y, progress, hround, hy, hless, hidle⟩
      · exact .inl ⟨e, by rw [loop, if_neg hdone, hround], hdirty⟩
      · cases progress with
        | true =>
          rw [Bool.toNat_true] at hless
          have hloop : loop D input room (fuel + 1) x = loop D input room fuel y := by
            rw [loop, if_neg hdone, hround]
            rfl
          rw [hloop]
          exact ih y hy (by omega)
        | false =>
          refine .inr ⟨y, by rw [loop, if_neg hdone, hround]; rfl, hy, ?_⟩
          rcases hidle rfl with hfinished | hused
          · exact .inl hfinished
          · exact .inr (.inr hused)

end Call

/-- The plan of the whole chain: the composition of the stages' plans. -/
def whole (p : Plan σ) (plans : List (Plan σ)) : Plan (ChainDecompressor σ) where
  input := p.input
  output := (lastPlan p plans).output
  clean := ∀ x ∈ p :: plans, x.clean
  At ch c u := Standing ch.first p ch.rest plans ∧ ch.first.totalIn = c ∧
    (lastOf ch.first ch.rest).totalOut = u

/-- What a chain at its start has to read and to make. -/
def size : Plan σ → List (Plan σ) → Nat
  | p, [] => p.left 0 0
  | p, q :: plans => p.left 0 0 + size q plans

theorem left_le (p : Plan σ) (c u : Nat) : p.left c u ≤ p.left 0 0 := by
  rw [Plan.left, Plan.left]
  omega

theorem todo_le_size (s : Slot σ) (p : Plan σ) (rest : List (Slot σ)) (plans : List (Plan σ)) :
    todo s p rest plans ≤ size p plans := by
  have hleft := left_le p s.totalIn s.totalOut
  induction rest generalizing s p plans with
  | nil =>
    cases plans with
    | nil => exact hleft
    | cons q plans =>
      show p.left s.totalIn s.totalOut ≤ p.left 0 0 + size q plans
      omega
  | cons t rest ih =>
    cases plans with
    | nil => exact hleft
    | cons q plans =>
      have := ih t q plans (left_le q t.totalIn t.totalOut)
      show p.left s.totalIn s.totalOut + todo t q rest plans ≤ p.left 0 0 + size q plans
      omega

/-- A chain of stages that keep their plans keeps the composition of them. -/
theorem whole_keeps {p q : Plan σ} {plans : List (Plan σ)} (hline : Line D p (q :: plans))
    {fuel : Nat} (hfuel : size p (q :: plans) < fuel) :
    (whole p (q :: plans)).Keeps (decompress D fuel) where
  within := by
    rintro ch c u ⟨hstanding, rfl, rfl⟩
    exact ⟨(hline.keeps.within _ _ _ hstanding.on.stands).1,
      (hline.last_keeps.within _ _ _ hstanding.last_on.stands).2⟩
  decompress := by
    rintro ch c u input room ⟨hstanding, hin, hout⟩ hinput hend hroom
    have hstart : Under p (q :: plans) c u input room { chain := ch, inPos := 0, output := [] } :=
      ⟨hstanding, hin, hout, List.nil_prefix, Nat.zero_le _, Nat.zero_le _⟩
    rcases loop_under hline hinput hend fuel _ hstart
        (Nat.lt_of_le_of_lt (todo_le_size _ _ _ _) hfuel) with
      ⟨e, hloop, hdirty⟩ | ⟨y, hloop, hy, hdone⟩
    · exact .inl ⟨e, by rw [decompress, hloop], hdirty⟩
    · refine .inr ⟨y.result, y.chain, by rw [decompress, hloop], hy.inPos_le, hy.output_le, hy.output,
        ⟨hy.standing, hy.totalIn, hy.totalOut⟩, ?_, ?_⟩
      · intro hstatus
        have hfinished : y.chain.finished = true := by
          by_contra hnot
          rw [Calling.result, if_neg hnot] at hstatus
          cases hstatus
        have hall := hy.standing.last_on.ended hfinished
        exact hy.totalOut.symm.trans hall
      · intro hstatus
        have hunfinished : ¬ y.chain.finished = true := by
          intro hfinished
          rw [Calling.result, if_pos hfinished] at hstatus
          cases hstatus
        rcases hdone with hfinished | hfull | ⟨hused, hnonempty⟩
        · exact absurd hfinished hunfinished
        · right
          show 0 < y.output.length
          omega
        · left
          have := List.length_pos_of_ne_nil hnonempty
          show 0 < y.inPos
          omega

/-- From where it is created, a stage makes `F X` of every byte string `X`: the bytes, and
whether it ends cleanly.  `Also` is what else its plans are asked for. -/
def MeansAnd (D : Decompress σ) (Also : σ → Plan σ → Prop) (s : σ)
    (F : List Byte → List Byte × Bool) : Prop :=
  ∀ X, ∃ p : Plan σ, p.input = X ∧ p.output = (F X).1 ∧ (p.clean ↔ (F X).2 = true) ∧
    p.Keeps D ∧ p.At s 0 0 ∧ Also s p

def Means (D : Decompress σ) (s : σ) (F : List Byte → List Byte × Bool) : Prop :=
  MeansAnd D (fun _ _ => True) s F

/-- The stages one after another, each on the whole output of the one before it. -/
def compose : List (List Byte → List Byte × Bool) → List Byte → List Byte × Bool
  | [], X => (X, true)
  | F :: Fs, X => ((compose Fs (F X).1).1, (F X).2 && (compose Fs (F X).1).2)

theorem fresh_on {p : Plan σ} {s : σ} (hat : p.At s 0 0) :
    (Slot.fresh s).On p := ⟨hat, fun h => by cases h⟩

/-- The plans of freshly built stages. -/
theorem fresh_line {Also : σ → Plan σ → Prop} {Fs : List (List Byte → List Byte × Bool)}
    {stages : List σ} (hrest : List.Forall₂ (MeansAnd D Also) stages Fs) :
    ∀ {s : σ} {F : List Byte → List Byte × Bool}, MeansAnd D Also s F → ∀ X, ∃ p plans,
      p.input = X ∧ Line D p plans ∧ Standing (Slot.fresh s) p (stages.map Slot.fresh) plans ∧
      (lastPlan p plans).output = (compose (F :: Fs) X).1 ∧
      ((∀ x ∈ p :: plans, x.clean) ↔ (compose (F :: Fs) X).2 = true) ∧
      List.Forall₂ Also (s :: stages) (p :: plans) := by
  induction hrest with
  | nil =>
    intro s F hs X
    obtain ⟨p, hin, hout, hclean, hp, hat, hextra⟩ := hs X
    refine ⟨p, [], hin, .last hp, .last (fresh_on hat), hout, ?_, .cons hextra .nil⟩
    simp [compose, hclean]
  | @cons t G stages Gs ht hafter ih =>
    intro s F hs X
    obtain ⟨p, hin, hout, hclean, hp, hat, hextra⟩ := hs X
    obtain ⟨q, plans, hqin, hline, hstanding, hlast, hall, hextras⟩ := ih ht (F X).1
    refine ⟨p, q :: plans, hin, .link hp (hqin.trans hout.symm) hline, ?_, hlast, ?_,
      .cons hextra hextras⟩
    · refine .link (fresh_on hat) ⟨?_, Nat.zero_le _, .inr ⟨rfl, rfl⟩⟩ hstanding
      show [] = seg p.output 0 0
      rw [seg_self]
    · have hboth : (compose (F :: G :: Gs) X).2 = ((F X).2 && (compose (G :: Gs) (F X).1).2) := rfl
      rw [List.forall_mem_cons, hall, hclean, hboth, Bool.and_eq_true]

/-- At least two freshly built stages are a chain that keeps the composition of their plans. -/
theorem fresh_chain {Also : σ → Plan σ → Prop} {stages : List σ}
    {Fs : List (List Byte → List Byte × Bool)}
    (hstages : List.Forall₂ (MeansAnd D Also) stages Fs) (htwo : 2 ≤ stages.length)
    (X : List Byte) :
    ∃ ch p q plans, new stages = .ok ch ∧ Line D p (q :: plans) ∧
      (whole p (q :: plans)).At ch 0 0 ∧ p.input = X ∧
      (whole p (q :: plans)).output = (compose Fs X).1 ∧
      ((whole p (q :: plans)).clean ↔ (compose Fs X).2 = true) ∧
      List.Forall₂ Also stages (p :: q :: plans) ∧
      ch.first :: ch.rest = stages.map Slot.fresh := by
  cases hstages with
  | nil => exact absurd htwo (by simp)
  | @cons s F rest Fs hs hrest =>
    cases hrest with
    | nil => exact absurd htwo (by simp)
    | @cons t G rest Gs ht hrest =>
      obtain ⟨p, plans, hin, hline, hstanding, hlast, hclean, hextra⟩ :=
        fresh_line (.cons ht hrest) hs X
      cases hline with
      | last _ => cases hstanding
      | @link _ q plans hp hlink hafter =>
        have hfresh : ∀ (l : List σ) (s : σ),
            (lastOf (Slot.fresh s) (l.map Slot.fresh)).totalOut = 0 := by
          intro l
          induction l with
          | nil => exact fun _ => rfl
          | cons t l ih => exact fun _ => ih t
        exact ⟨_, p, q, plans, rfl, .link hp hlink hafter, ⟨hstanding, rfl, hfresh (t :: rest) s⟩, hin,
          hlast, hclean, hextra, rfl⟩

/-- Every feeding of a chain delivers a prefix of what its stages make one after another,
and ends; where each of them ends cleanly it delivers all of that and reports the end.  A
call with input moves something, reports the end, or fails. -/
theorem decompress_composes {stages : List σ} {Fs : List (List Byte → List Byte × Bool)}
    (hstages : List.Forall₂ (Means D) stages Fs) (htwo : 2 ≤ stages.length) (X : List Byte) :
    ∃ ch, new stages = .ok ch ∧ ∃ bound, ∀ fuel, bound ≤ fuel → ∀ cuts,
      (∃ e, EndsAs (asCall (decompress D fuel)) X cuts ch e ∧
        e.output <+: (compose Fs X).1 ∧ (e.outcome = none → e.output = (compose Fs X).1) ∧
        ((compose Fs X).2 = true → e.outcome = none) ∧
        ∀ f, e.outcome = some f → ∃ err, f = .error err) ∧
      ∀ n g, feed (asCall (decompress D fuel)) X n cuts { state := ch, consumed := 0, output := [] } =
          .going g →
        g.output <+: (compose Fs X).1 ∧
        ∀ input room, input ≠ [] → input <+: X.drop g.consumed → 0 < room →
          (∃ err, decompress D fuel g.state input room = .error (.error err)) ∨
          ∃ r ch', decompress D fuel g.state input room = .ok (r, ch') ∧
            (r.status = .streamEnd ∨ 0 < r.bytesConsumed ∨ 0 < r.bytesProduced) := by
  obtain ⟨ch, p, q, plans, hnew, hline, hat, hin, houtput, hclean, _⟩ := fresh_chain hstages htwo X
  refine ⟨ch, hnew, size p (q :: plans) + 1, ?_⟩
  intro fuel hfuel cuts
  have hkeeps := whole_keeps hline hfuel
  have hinput : (whole p (q :: plans)).input.drop 0 = X := hin
  rw [← houtput]
  constructor
  · obtain ⟨e, hends, he⟩ := hkeeps.ends hat cuts
    rw [hinput] at hends
    exact ⟨e, hends, he.output, he.all, fun hall => he.clean (hclean.mpr hall), he.fault⟩
  · intro n g hfeed
    rcases hkeeps.fed n cuts { state := ch, consumed := 0, output := [] }
        ⟨hat, List.nil_prefix⟩ with ⟨g', hfeed', hg⟩ | ⟨e, hfeed', _⟩
    · rw [hinput, hfeed] at hfeed'
      cases hfeed'
      refine ⟨hg.output, ?_⟩
      intro input room hnonempty hslice hroom
      have hfrom : input <+: (whole p (q :: plans)).input.drop (0 + g.consumed) := by
        rw [← List.drop_drop, hinput]
        exact hslice
      rcases hkeeps.decompress _ _ _ input room hg.stands hfrom
          (fun h => absurd h hnonempty) hroom with ⟨e, hcall, _⟩ | ⟨r, ch', hcall, hr⟩
      · exact .inl ⟨e, hcall⟩
      · refine .inr ⟨r, ch', hcall, ?_⟩
        cases hstatus : r.status with
        | streamEnd => exact .inl rfl
        | «continue» => exact .inr (hr.progress hstatus)
    · rw [hinput, hfeed] at hfeed'
      cases hfeed'

/-- The passthrough decompressor as a stage. -/
def passthrough : Decompress NoneDecompressor := fun d input room => .ok (d.decompress input room)

def passthroughPlan (X : List Byte) : Plan NoneDecompressor :=
  { input := X, output := X, clean := True, At := NoneDecompressor.At X }

theorem passthroughPlan_keeps (X : List Byte) : (passthroughPlan X).Keeps passthrough where
  within := fun s c u h => ⟨h.within, h.same ▸ h.within⟩
  decompress := by
    intro s c u input room h hinput hend hroom
    have hgood := NoneDecompressor.decompress_good h hinput hend hroom
    refine .inr ⟨_, _, rfl, hgood.consumed_le, hgood.produced_le, hgood.produced_eq, hgood.stands,
      hgood.ended, ?_⟩
    intro hstatus
    rcases hgood.progress hstatus with hmoved | hmoved | ⟨hnil, _⟩
    · exact .inl hmoved
    · exact .inr hmoved
    · have hempty : input = [] := by
        have hinput : input <+: X.drop c := hinput
        rw [hnil, List.drop_nil] at hinput
        exact List.prefix_nil.mp hinput
      rw [hempty] at hstatus
      cases hstatus

theorem passthroughPlan_fresh (X : List Byte) : (passthroughPlan X).At NoneDecompressor.new 0 0 :=
  ⟨rfl, rfl, rfl, Nat.zero_le _⟩

theorem passthrough_means : Means passthrough NoneDecompressor.new (fun X => (X, true)) := by
  intro X
  exact ⟨passthroughPlan X, rfl, rfl, by simp [passthroughPlan], passthroughPlan_keeps X,
    passthroughPlan_fresh X, trivial⟩

/-- Two passthrough stages. -/
theorem decompress_composes_passthrough :
    ∃ ch, new [NoneDecompressor.new, NoneDecompressor.new] = .ok ch ∧ ∃ bound, ∀ fuel, bound ≤ fuel →
      ∃ e, EndsAs (asCall (decompress passthrough fuel)) [1, 2, 3] (fun _ => (0, 1)) ch e ∧
        e.outcome = none ∧ e.output = [1, 2, 3] := by
  obtain ⟨ch, hnew, bound, hall⟩ := decompress_composes
    (.cons passthrough_means (.cons passthrough_means .nil)) (by decide) [1, 2, 3]
  refine ⟨ch, hnew, bound, ?_⟩
  intro fuel hfuel
  obtain ⟨⟨e, hends, _, hout, hclean, _⟩, _⟩ := hall fuel hfuel (fun _ => (0, 1))
  exact ⟨e, hends, hclean rfl, hout (hclean rfl)⟩

end ChainDecompressor
end Iluvatar
