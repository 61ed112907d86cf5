/-
Where the slots of a chain stand, and what one pass over them does.

Each slot stands where the plan of its stage says, and the buffer between two stages
holds exactly what the left one made and the right one has not taken.  A pass in which
nothing moves leaves nothing that could: the last stage has ended, the caller's output is
full, or stage 0 has nothing to give.
-/
import Iluvatar.Compress.Chain

namespace Iluvatar
namespace ChainDecompressor

open Sansio

variable {σ : Type} {D : Decompress σ}

/-- The slot's stage stands where the plan says, at the end if it reported it. -/
structure Slot.On (s : Slot σ) (p : Plan σ) : Prop where
  stands : p.At s.stage s.totalIn s.totalOut
  ended : s.ended = true → s.totalOut = p.output.length

/-- The slot's buffer holds what the stage made from place `pos` on. -/
structure Slot.Holds (s : Slot σ) (out : List Byte) (pos : Nat) : Prop where
  unread : s.unread = seg out pos s.totalOut
  pos_le : pos ≤ s.totalOut
  compact : s.read < s.buf.length ∨ s.buf = [] ∧ s.read = 0

/-- The slots from `s` on stand, and hold what is in flight between them. -/
inductive Standing : Slot σ → Plan σ → List (Slot σ) → List (Plan σ) → Prop
  | last {s : Slot σ} {p : Plan σ} : s.On p → Standing s p [] []
  | link {s t : Slot σ} {p q : Plan σ} {rest : List (Slot σ)} {plans : List (Plan σ)} :
      s.On p → s.Holds p.output t.totalIn → Standing t q rest plans →
      Standing s p (t :: rest) (q :: plans)

/-- Every stage keeps its plan, and its input is what the one before it makes. -/
inductive Line (D : Decompress σ) : Plan σ → List (Plan σ) → Prop
  | last {p : Plan σ} : p.Keeps D → Line D p []
  | link {p q : Plan σ} {plans : List (Plan σ)} :
      p.Keeps D → q.input = p.output → Line D q plans → Line D p (q :: plans)

theorem Line.keeps {p : Plan σ} {plans : List (Plan σ)} (h : Line D p plans) : p.Keeps D := by
  cases h with
  | last hp => exact hp
  | link hp _ _ => exact hp

theorem Standing.on {s : Slot σ} {p : Plan σ} {rest : List (Slot σ)} {plans : List (Plan σ)}
    (h : Standing s p rest plans) : s.On p := by
  cases h with
  | last hs => exact hs
  | link hs _ _ => exact hs

/-- The plan of the last stage. -/
def lastPlan : Plan σ → List (Plan σ) → Plan σ
  | p, [] => p
  | _, q :: plans => lastPlan q plans

/-- What all the stages from `s` on have left to read and to make. -/
def todo : Slot σ → Plan σ → List (Slot σ) → List (Plan σ) → Nat
  | s, p, t :: rest, q :: plans => p.left s.totalIn s.totalOut + todo t q rest plans
  | s, p, _, _ => p.left s.totalIn s.totalOut

/-- What a turn of slot `s` did, given `n` bytes to read. -/
structure Turned (p : Plan σ) (s : Slot σ) (n space : Nat) (t : Turn σ) : Prop where
  on : t.slot.On p
  totalIn : t.slot.totalIn = s.totalIn + t.taken
  totalOut : t.slot.totalOut = s.totalOut + t.made.length
  buf : t.slot.buf = s.buf
  read : t.slot.read = s.read
  taken_le : t.taken ≤ n
  made_le : t.made.length ≤ space
  made : t.made <+: p.output.drop s.totalOut
  less : p.left t.slot.totalIn t.slot.totalOut + t.progress.toNat ≤ p.left s.totalIn s.totalOut
  still : t.progress = false → t.made = []

theorem Turned.skip {p : Plan σ} {s : Slot σ} (hs : s.On p) (n space : Nat) :
    Turned p s n space (Turn.skip s) where
  on := hs
  totalIn := rfl
  totalOut := rfl
  buf := rfl
  read := rfl
  taken_le := Nat.zero_le _
  made_le := Nat.zero_le _
  made := List.nil_prefix
  less := Nat.le_refl _
  still := fun _ => rfl

/-- A call of the slot's stage either fails, where the plan is not clean, or moves it. -/
theorem Slot.call_turned {p : Plan σ} {s : Slot σ} (hp : p.Keeps D) (hs : s.On p)
    {input : List Byte} {room : Nat} (hinput : input <+: p.input.drop s.totalIn)
    (hend : input = [] → p.input.length ≤ s.totalIn) (hroom : 0 < room) :
    (∃ e, s.call D input room = .error (.error e) ∧ ¬ p.clean) ∨
    ∃ t, s.call D input room = .ok t ∧ Turned p s input.length room t ∧
      (t.progress = false → t.slot.ended = true) := by
  rcases hp.decompress _ _ _ _ _ hs.stands hinput hend hroom with
    ⟨e, hcall, hdirty⟩ | ⟨r, s', hcall, hanswer⟩
  · exact .inl ⟨e, by rw [Slot.call, hcall], hdirty⟩
  · have hwithin := hp.within _ _ _ hanswer.stands
    have hmoved : moved r = true ↔ 0 < r.bytesConsumed ∨ 0 < r.produced.length := by
      rw [moved, Bool.or_eq_true, decide_eq_true_iff, decide_eq_true_iff]
      rfl
    refine .inr ⟨Turn.of s r s', by rw [Slot.call, hcall], ?_, ?_⟩
    · have hon : (s.called r s').On p := by
        refine ⟨hanswer.stands, ?_⟩
        intro hended
        rcases (Bool.or_eq_true _ _).mp hended with hbefore | hnow
        · have hall := hs.ended hbefore
          show s.totalOut + r.produced.length = p.output.length
          omega
        · exact hanswer.ended (eq_of_beq hnow)
      refine ⟨hon, rfl, rfl, rfl, rfl, hanswer.consumed_le, hanswer.produced_le,
        hanswer.produced_eq, ?_, ?_⟩
      · show p.left (s.totalIn + r.bytesConsumed) (s.totalOut + r.produced.length) +
          (moved r).toNat ≤ p.left s.totalIn s.totalOut
        simp only [Plan.left]
        by_cases hm : moved r = true
        · have := hmoved.mp hm
          rw [hm, Bool.toNat_true]
          omega
        · rw [Bool.not_eq_true] at hm
          rw [hm, Bool.toNat_false]
          omega
      · intro hstill
        have hnot : ¬ (0 < r.bytesConsumed ∨ 0 < r.produced.length) := by
          rw [← hmoved]
          simpa [Turn.of] using hstill
        exact List.eq_nil_of_length_eq_zero (by show r.produced.length = 0; omega)
    · intro hstill
      have hnot : ¬ (0 < r.bytesConsumed ∨ 0 < r.produced.length) := by
        rw [← hmoved]
        simpa [Turn.of] using hstill
      have hstatus : r.status = .streamEnd := by
        cases hstatus : r.status with
        | streamEnd => rfl
        | «continue» => exact absurd (hanswer.progress hstatus) hnot
      show (s.ended || r.status == .streamEnd) = true
      rw [hstatus]
      exact Bool.or_true _

theorem Slot.Holds.unread_length {s : Slot σ} {out : List Byte} {pos : Nat} (h : s.Holds out pos)
    (hwithin : s.totalOut ≤ out.length) : s.unread.length = s.totalOut - pos := by
  rw [h.unread, seg_length_of_le hwithin]

/-- An empty buffer has nothing to read, and a full one always has. -/
theorem Slot.Holds.buf_eq_nil {s : Slot σ} {out : List Byte} {pos : Nat} (h : s.Holds out pos)
    (hempty : s.unread = []) : s.buf = [] := by
  rcases h.compact with hread | ⟨hnil, _⟩
  · have hlen := congrArg List.length hempty
    rw [Slot.unread, List.length_drop, List.length_nil] at hlen
    omega
  · exact hnil

/-- The next stage takes `n` bytes. -/
theorem Slot.Holds.taken {s : Slot σ} {out : List Byte} {pos n : Nat} (h : s.Holds out pos)
    (hwithin : s.totalOut ≤ out.length) (hn : n ≤ s.unread.length) :
    (s.taken n).Holds out (pos + n) := by
  have hlen := h.unread_length hwithin
  have hbuf : s.unread.length = s.buf.length - s.read := by rw [Slot.unread, List.length_drop]
  have hunread : s.unread.drop n = seg out (pos + n) s.totalOut := by rw [h.unread, seg_drop]
  have hpos := h.pos_le
  by_cases hall : s.read + n = s.buf.length
  · have hbuilt : s.taken n = { s with buf := [], read := 0 } := by rw [Slot.taken, if_pos hall]
    rw [hbuilt]
    refine ⟨?_, ?_, .inr ⟨rfl, rfl⟩⟩
    · rw [← hunread, List.drop_eq_nil_of_le (by omega)]
      rfl
    · show pos + n ≤ s.totalOut
      omega
  · have hbuilt : s.taken n = { s with read := s.read + n } := by rw [Slot.taken, if_neg hall]
    rw [hbuilt]
    refine ⟨?_, ?_, .inl ?_⟩
    · rw [← hunread]
      show s.buf.drop (s.read + n) = (s.buf.drop s.read).drop n
      rw [List.drop_drop]
    · show pos + n ≤ s.totalOut
      omega
    · show s.read + n < s.buf.length
      have hcompact := h.compact
      rcases hcompact with hread | ⟨hnil, hzero⟩
      · omega
      · rw [hnil, List.length_nil] at hbuf hall
        omega

theorem Slot.taken_on {s : Slot σ} {p : Plan σ} (h : s.On p) (n : Nat) : (s.taken n).On p := by
  rw [Slot.taken]
  split
  · exact ⟨h.stands, h.ended⟩
  · exact ⟨h.stands, h.ended⟩

theorem Slot.taken_totalIn (s : Slot σ) (n : Nat) : (s.taken n).totalIn = s.totalIn := by
  rw [Slot.taken]
  split
  · rfl
  · rfl

theorem Slot.taken_totalOut (s : Slot σ) (n : Nat) : (s.taken n).totalOut = s.totalOut := by
  rw [Slot.taken]
  split
  · rfl
  · rfl

theorem Slot.push_on {s : Slot σ} {p : Plan σ} (h : s.On p) (made : List Byte) :
    (s.push made).On p := ⟨h.stands, h.ended⟩

/-- What a turn made is appended to what was in flight. -/
theorem Turned.push {p : Plan σ} {s : Slot σ} {n space pos : Nat} {t : Turn σ}
    (ht : Turned p s n space t) (h : s.Holds p.output pos) :
    (t.slot.push t.made).Holds p.output pos := by
  have hpos := h.pos_le
  have hout := ht.totalOut
  refine ⟨?_, ?_, ?_⟩
  · have hread : s.read ≤ s.buf.length := by
      rcases h.compact with hlt | ⟨_, hzero⟩
      · exact Nat.le_of_lt hlt
      · omega
    show (t.slot.buf ++ t.made).drop t.slot.read = seg p.output pos t.slot.totalOut
    rw [ht.buf, ht.read, List.drop_append_of_le_length hread, hout]
    have hmade := eq_seg_of_prefix ht.made
    have hunread := h.unread
    rw [Slot.unread] at hunread
    rw [hunread]
    calc seg p.output pos s.totalOut ++ t.made
        = seg p.output pos s.totalOut ++
            seg p.output s.totalOut (s.totalOut + t.made.length) := by rw [← hmade]
      _ = seg p.output pos (s.totalOut + t.made.length) :=
          seg_append _ hpos (Nat.le_add_right _ _)
  · show pos ≤ t.slot.totalOut
    omega
  · show t.slot.read < (t.slot.buf ++ t.made).length ∨ t.slot.buf ++ t.made = [] ∧ t.slot.read = 0
    rw [ht.buf, ht.read, List.length_append]
    rcases h.compact with hlt | ⟨hnil, hzero⟩
    · exact .inl (by omega)
    · rw [hnil, hzero, List.nil_append]
      cases hmade : t.made with
      | nil => exact .inr ⟨rfl, rfl⟩
      | cons b bs => exact .inl (Nat.succ_pos _)

section Pass

variable {p q : Plan σ} {s t : Slot σ}

/-- The turn of a stage after the first. -/
theorem turn_turned (hp : p.Keeps D) (hq : q.Keeps D) (hlink : q.input = p.output) (hs : s.On p)
    (ht : t.On q) (hholds : s.Holds p.output t.totalIn) (space : Nat) :
    (∃ e, turn D s t space = .error (.error e) ∧ ¬ q.clean) ∨
    ∃ x, turn D s t space = .ok x ∧ Turned q t s.unread.length space x ∧
      (x.progress = false → x.slot.ended = true ∨ space = 0 ∨ s.buf = [] ∧ s.ended = false) := by
  by_cases hended : t.ended = true
  · refine .inr ⟨Turn.skip t, by rw [turn, if_pos hended], Turned.skip ht _ _, fun _ => .inl hended⟩
  by_cases hwait : (s.unread.isEmpty && !s.ended) = true
  · refine .inr ⟨Turn.skip t, by rw [turn, if_neg hended, if_pos hwait], Turned.skip ht _ _, ?_⟩
    intro _
    rw [Bool.and_eq_true, List.isEmpty_iff, Bool.not_eq_true'] at hwait
    exact .inr (.inr ⟨hholds.buf_eq_nil hwait.1, hwait.2⟩)
  by_cases hspace : space = 0
  · refine .inr ⟨Turn.skip t, by rw [turn, if_neg hended, if_neg hwait, if_pos hspace],
      Turned.skip ht _ _, fun _ => .inr (.inl hspace)⟩
  have hcalled : turn D s t space = t.call D s.unread space := by
    rw [turn, if_neg hended, if_neg hwait, if_neg hspace]
  have hwithin := (hp.within _ _ _ hs.stands).2
  have hinput : s.unread <+: q.input.drop t.totalIn := by
    rw [hlink, hholds.unread, seg_eq_take_drop]
    exact List.take_prefix _ _
  have hend : s.unread = [] → q.input.length ≤ t.totalIn := by
    intro hnil
    have hover : s.ended = true := by
      rw [hnil] at hwait
      simpa using hwait
    have hlen := hholds.unread_length hwithin
    rw [hnil, List.length_nil, hs.ended hover] at hlen
    rw [hlink]
    omega
  rw [hcalled]
  rcases t.call_turned hq ht hinput hend (Nat.pos_of_ne_zero hspace) with
    ⟨e, hcall, hdirty⟩ | ⟨x, hcall, hx, hidle⟩
  · exact .inl ⟨e, hcall, hdirty⟩
  · exact .inr ⟨x, hcall, hx, fun hstill => .inl (hidle hstill)⟩

/-- What one pass over the stages after `s` did. -/
structure Passed (s : Slot σ) (p : Plan σ) (rest : List (Slot σ)) (plans : List (Plan σ))
    (room : Nat) (x : Pumped σ) : Prop where
  standing : Standing x.first p x.rest plans
  totalIn : x.first.totalIn = s.totalIn
  totalOut : (lastOf x.first x.rest).totalOut = (lastOf s rest).totalOut + x.made.length
  made_le : x.made.length ≤ room
  made : x.made <+: (lastPlan p plans).output.drop (lastOf s rest).totalOut
  less : todo x.first p x.rest plans + x.progress.toNat ≤ todo s p rest plans
  idle : x.progress = false →
    (lastOf x.first x.rest).ended = true ∨ room = 0 ∨ s.buf = [] ∧ s.ended = false

theorem pump_one {room : Nat} {y : Turn σ} (h : turn D s t room = .ok y) :
    pump D s [t] room =
      .ok { first := s.taken y.taken, rest := [y.slot], made := y.made, progress := y.progress } := by
  rw [pump, h]

theorem pump_more {next : Slot σ} {rest : List (Slot σ)} {room : Nat} {y : Turn σ} {x : Pumped σ}
    (h : turn D s t (stageBuf - t.buf.length) = .ok y)
    (hx : pump D (y.slot.push y.made) (next :: rest) room = .ok x) :
    pump D s (t :: next :: rest) room =
      .ok { first := s.taken y.taken, rest := x.first :: x.rest, made := x.made
            progress := y.progress || x.progress } := by
  rw [pump, h]
  simp only [hx]

theorem pump_last (room : Nat) (hp : p.Keeps D) (hq : q.Keeps D) (hlink : q.input = p.output)
    (hs : s.On p) (ht : t.On q) (hholds : s.Holds p.output t.totalIn) :
    (∃ e, pump D s [t] room = .error (.error e) ∧ ¬ q.clean) ∨
    ∃ x, pump D s [t] room = .ok x ∧ Passed s p [t] [q] room x := by
  rcases turn_turned hp hq hlink hs ht hholds room with ⟨e, hturn, hdirty⟩ | ⟨y, hturn, hy, hidle⟩
  · exact .inl ⟨e, by rw [pump, hturn], hdirty⟩
  · have hwithin := (hp.within _ _ _ hs.stands).2
    have hheld := hholds.taken hwithin hy.taken_le
    rw [← hy.totalIn] at hheld
    refine .inr ⟨_, pump_one hturn, ?_, s.taken_totalIn _, hy.totalOut, hy.made_le, hy.made,
      ?_, hidle⟩
    · exact .link (s.taken_on hs _) hheld (.last hy.on)
    · have hless := hy.less
      show p.left (s.taken y.taken).totalIn (s.taken y.taken).totalOut +
        q.left y.slot.totalIn y.slot.totalOut + y.progress.toNat ≤ _
      rw [s.taken_totalIn, s.taken_totalOut]
      show _ ≤ p.left s.totalIn s.totalOut + q.left t.totalIn t.totalOut
      omega

/-- One pass over the stages after the first. -/
theorem pump_passed {rest : List (Slot σ)} {plans : List (Plan σ)} (room : Nat)
    (hp : p.Keeps D) (hlink : q.input = p.output) (hline : Line D q plans) (hs : s.On p)
    (hholds : s.Holds p.output t.totalIn) (hrest : Standing t q rest plans) :
    (∃ e, pump D s (t :: rest) room = .error (.error e) ∧ ¬ ∀ x ∈ q :: plans, x.clean) ∨
    ∃ x, pump D s (t :: rest) room = .ok x ∧ Passed s p (t :: rest) (q :: plans) room x := by
  induction hrest generalizing s p with
  | @last t q ht =>
    rcases pump_last room hp hline.keeps hlink hs ht hholds with ⟨e, hpump, hdirty⟩ | hok
    · exact .inl ⟨e, hpump, fun hall => hdirty (hall q (List.mem_cons_self ..))⟩
    · exact .inr hok
  | @link t next q r rest plans ht hheld hrest ih =>
    have hq := hline.keeps
    rcases turn_turned hp hq hlink hs ht hholds (stageBuf - t.buf.length) with
      ⟨e, hturn, hdirty⟩ | ⟨y, hturn, hy, hidle⟩
    · exact .inl ⟨e, by rw [pump, hturn], fun hall => hdirty (hall q (List.mem_cons_self ..))⟩
    · cases hline with
      | link _ hnext hafter =>
        rcases ih hq hnext hafter (Slot.push_on hy.on y.made) (hy.push hheld) with
          ⟨e, hpump, hdirty⟩ | ⟨x, hpump, hx⟩
        · refine .inl ⟨e, by rw [pump, hturn]; simp only [hpump], fun hall => hdirty ?_⟩
          exact fun z hz => hall z (List.mem_cons_of_mem _ hz)
        · have hwithin := (hp.within _ _ _ hs.stands).2
          have hread := hholds.taken hwithin hy.taken_le
          have htotal : x.first.totalIn = t.totalIn + y.taken := hx.totalIn.trans hy.totalIn
          rw [← htotal] at hread
          refine .inr ⟨_, pump_more hturn hpump, ?_, s.taken_totalIn _, hx.totalOut, hx.made_le,
            hx.made, ?_, ?_⟩
          · exact .link (s.taken_on hs _) hread hx.standing
          · have hless := hy.less
            have hafter := hx.less
            have hpush : todo (y.slot.push y.made) q (next :: rest) (r :: plans) =
                q.left y.slot.totalIn y.slot.totalOut + todo next r rest plans := rfl
            have hbefore : todo s p (t :: next :: rest) (q :: r :: plans) =
                p.left s.totalIn s.totalOut +
                  (q.left t.totalIn t.totalOut + todo next r rest plans) := rfl
            have hor : (y.progress || x.progress).toNat ≤ y.progress.toNat + x.progress.toNat := by
              cases y.progress <;> cases x.progress <;> decide
            show p.left (s.taken y.taken).totalIn (s.taken y.taken).totalOut +
              todo x.first q x.rest (r :: plans) + (y.progress || x.progress).toNat ≤ _
            rw [s.taken_totalIn, s.taken_totalOut, hbefore]
            omega
          · intro hstill
            obtain ⟨hfirst, hothers⟩ := (Bool.or_eq_false_iff).mp hstill
            -- an idle stage with an empty buffer that has not ended waits for the one before it
            rcases hx.idle hothers with hdone | hfull | ⟨hempty, hgoing⟩
            · exact .inl hdone
            · exact .inr (.inl hfull)
            · have hnil : t.buf = [] := by
                have hpushed : y.slot.buf ++ y.made = [] := hempty
                rw [hy.buf] at hpushed
                exact (List.append_eq_nil_iff.mp hpushed).1
              rcases hidle hfirst with hended | hspace | hwaits
              · exact absurd (hgoing.symm.trans hended) (by simp)
              · rw [hnil, List.length_nil] at hspace
                exact absurd hspace (by decide)
              · exact .inr (.inr hwaits)

end Pass

end ChainDecompressor
end Iluvatar
