/-
Streaming a file of an archive.

An `EntryReader` follows a cursor over the bytes of the file, whatever room its callers give
it and however often the file fails on the way.  The one failure it does not get over is of
the seek that comes with its first call: asked again it would go on from where the file
happens to stand.
-/
import Iluvatar.Sync.Ranges

namespace Iluvatar

open Sansio

variable {σ κ ι : Type} {codec : Codec σ κ} {packed plain : List Byte} {At : σ → Nat → Nat → Prop}
variable {answers : Answers ι} {full : Bool}

/-- What the engine will report in place of bytes that the stream does not have. -/
def missing (ι : Type) (plain : List Byte) (full : Bool) (s : ReadSession σ κ) : Option (ReadError ι) :=
  if full = true ∧
      (rangeOf plain s.offset s.len).length < StreamReader.clampLen s.reader.unpackedLen s.offset s.len then
    some (.fault (.error .truncatedInput))
  else none

theorem Continues.missing {s s' : ReadSession σ κ} {out : List Byte} (h : Continues s out s') :
    missing ι plain full s' = missing ι plain full s := by
  rw [Iluvatar.missing, Iluvatar.missing, h.offset, h.len, h.unpackedLen]

theorem wholeRange_eq (s : ReadSession σ κ) :
    wholeRange ι plain full s.reader.unpackedLen s.offset s.len =
      Cursor.rest ⟨rangeOf plain s.offset s.len, missing ι plain full s, false⟩ := by
  rw [wholeRange, missing, Cursor.rest]
  split <;> rfl

/-- A call on the file that failed is what a read of an entry fails with. -/
def FileFails (answers : Answers ι) (e : ReadError ι) : Prop := ∃ k err, answers k = .error err ∧ e = .io err

theorem FileFails.of_last {m n : Nat} {e : ι} (h : FailedLast answers m n e) : FileFails answers (.io e) := by
  obtain ⟨k, _, _, herror⟩ := h
  exact ⟨k, e, herror, rfl⟩

namespace EntryReader

/-- The reader is about to serve what the cursor has left, of a range of at most `most` bytes. -/
inductive Follows (codec : Codec σ κ) (packed plain : List Byte) (At : σ → Nat → Nat → Prop)
    (full : Bool) (most : Nat) :
    EntryReader σ κ → Cursor Byte (ReadError ι) → Prop
  | going {e s left} (serves : Serves codec packed plain At full s e.engine e.reader) (going : e.done = false)
      (short : s.len ≤ most) (bytes : s.delivered ++ left = rangeOf plain s.offset s.len) :
      Follows codec packed plain At full most e ⟨left, missing ι plain full s, false⟩
  | spent {e c} (done : e.done = true) (spent : c.spent = true) : Follows codec packed plain At full most e c

/-- The reader has its seek still to make. -/
def Fresh (e : EntryReader σ κ) : Prop := e.done = false ∧ e.engine.started = false

/-- What a read of the entry comes to: a read of the cursor, or a failure to seek. -/
def Comes (codec : Codec σ κ) (packed plain : List Byte) (At : σ → Nat → Nat → Prop) (answers : Answers ι)
    (full : Bool) (most room : Nat) (e : EntryReader σ κ) (c : Cursor Byte (ReadError ι))
    (result : Except (ReadError ι) (List Byte)) (e' : EntryReader σ κ) : Prop :=
  (e.Fresh ∧ ∃ err, answers e.reader.calls = .error err ∧ result = .error (.io err) ∧
      e.reader.calls < e'.reader.calls) ∨
    ∃ c', Cursor.Reads (FileFails answers) room c result c' ∧ Follows codec packed plain At full most e' c' ∧
      (∀ err, result = .error (.io err) →
        ∃ k, answers k = .error err ∧ e.reader.calls ≤ k ∧ k < e'.reader.calls) ∧
      e.reader.calls ≤ e'.reader.calls ∧
      (e'.Fresh → e.Fresh ∧ e'.reader.calls = e.reader.calls)

/-- Once the engine was started there is no more seek to fail. -/
theorem Comes.after {most room : Nat} {e e₁ e' : EntryReader σ κ} {c : Cursor Byte (ReadError ι)}
    {result : Except (ReadError ι) (List Byte)} (h : Comes codec packed plain At answers full most room e₁ c result e')
    (hstarted : e₁.engine.started = true) (hcalls : e.reader.calls ≤ e₁.reader.calls) :
    Comes codec packed plain At answers full most room e c result e' := by
  have hnot : ¬ e₁.Fresh := fun hfresh => absurd hstarted (by rw [hfresh.2]; exact Bool.false_ne_true)
  rcases h with ⟨hfresh, _⟩ | ⟨c', hreads, hfollows, hfailed, hle, hthen⟩
  · exact absurd hfresh hnot
  · refine .inr ⟨c', hreads, hfollows, fun err herr => ?_, Nat.le_trans hcalls hle,
      fun hfresh => absurd (hthen hfresh).1 hnot⟩
    obtain ⟨k, herror, hfrom, hto⟩ := hfailed err herr
    exact ⟨k, herror, Nat.le_trans hcalls hfrom, hto⟩

/-- A read that failed leaves the cursor where it was. -/
theorem failed_comes {most room : Nat} {e : EntryReader σ κ} {s s' : ReadSession σ κ} {left : List Byte}
    {r : StreamReader σ κ} {file : File Byte} {err : ι} (hgoing : e.done = false) (hmost : s.len ≤ most)
    (hbytes : s.delivered ++ left = rangeOf plain s.offset s.len)
    (hlast : FailedLast answers e.reader.calls file.calls err)
    (hserves : Serves codec packed plain At full s' r file) (hcontinues : Continues s [] s')
    (hstarted : s'.reader.started = true) :
    Comes codec packed plain At answers full most room e ⟨left, missing ι plain full s, false⟩ (.error (.io err))
      { e with reader := file, engine := r } := by
  have hfails := FileFails.of_last hlast
  obtain ⟨k, hk, hfine, herror⟩ := hlast
  have hcalls := hfine.1
  refine .inr ⟨_, .failed hfails, ?_, fun err' herr => ?_, by simp only; omega, fun hfresh => ?_⟩
  · rw [← hcontinues.missing]
    refine .going hserves hgoing (by rw [hcontinues.len]; exact hmost) ?_
    rw [hcontinues.delivered, hcontinues.offset, hcontinues.len, List.append_nil, hbytes]
  · cases herr
    exact ⟨k, herror, hcalls, by simp only; omega⟩
  · have hfresh : s'.reader.started = false := by
      have hengine := hfresh.2
      simp only [hserves.reader] at hengine
      exact hengine
    rw [hfresh] at hstarted
    cases hstarted

/-- What a read takes continues what was read before. -/
theorem taken_comes {most room : Nat} {e : EntryReader σ κ} {s s' : ReadSession σ κ} {left out : List Byte} {b : Byte}
    {r : StreamReader σ κ} (hgoing : e.done = false) (hmost : s.len ≤ most)
    (hbytes : s.delivered ++ left = rangeOf plain s.offset s.len)
    (hserves : Serves codec packed plain At full s' r e.reader) (hcontinues : Continues s (b :: out) s')
    (hroom : (b :: out).length ≤ room) (hstarted : s'.reader.started = true) :
    Comes codec packed plain At answers full most room e ⟨left, missing ι plain full s, false⟩ (.ok (b :: out))
      { e with engine := r } := by
  have hprefix := hserves.inv.range.delivered
  rw [hcontinues.delivered, hcontinues.offset, hcontinues.len, ← hbytes] at hprefix
  obtain ⟨rest, rfl⟩ := (List.prefix_append_right_inj _).mp hprefix
  refine .inr ⟨_, .taken (List.cons_ne_nil _ _) hroom, ?_, fun _ => nofun, Nat.le_refl _, fun hfresh => ?_⟩
  · rw [← hcontinues.missing]
    refine .going hserves hgoing (by rw [hcontinues.len]; exact hmost) ?_
    rw [hcontinues.delivered, hcontinues.offset, hcontinues.len, ← hbytes, List.append_assoc]
  · have hfresh : s'.reader.started = false := by
      have hengine := hfresh.2
      simp only [hserves.reader] at hengine
      exact hengine
    rw [hfresh] at hstarted
    cases hstarted

theorem readLoop_comes (hC : Obeys codec packed plain At) {fuel room most : Nat} (hroom : 0 < room)
    (hfuel : StreamReader.stepFuel packed plain ≤ fuel) :
    ∀ (rounds : Nat) {e : EntryReader σ κ} {s : ReadSession σ κ} {left : List Byte},
      Serves codec packed plain At full s e.engine e.reader → e.done = false → s.len ≤ most →
      s.delivered ++ left = rangeOf plain s.offset s.len → s.toGo packed plain < rounds →
      ∃ result e', e.readLoop answers fuel room rounds = some (result, e') ∧
        Comes codec packed plain At answers full most room e ⟨left, missing ι plain full s, false⟩ result e' := by
  intro rounds
  induction rounds with
  | zero => intro e s left _ _ _ _ hgo; exact absurd hgo (Nat.not_lt_zero _)
  | succ rounds ih =>
    intro e s left h hgoing hmost hbytes hgo
    obtain ⟨request, r', hstep, hturn⟩ := h.turn answers hC hfuel
    have hthen : ∀ {s₁ : ReadSession σ κ} {r₁ : StreamReader σ κ} {file₁ : File Byte},
        Serves codec packed plain At full s₁ r₁ file₁ → Continues s [] s₁ → s₁.reader.started = true →
        e.reader.calls ≤ file₁.calls → s₁.toGo packed plain < s.toGo packed plain →
        ∃ result e', readLoop answers fuel room rounds { e with reader := file₁, engine := r₁ } = some (result, e') ∧
          Comes codec packed plain At answers full most room e ⟨left, missing ι plain full s, false⟩ result e' := by
      intro s₁ r₁ file₁ hserves hcontinues hstarted hcalls hcloser
      have hbytes₁ : s₁.delivered ++ left = rangeOf plain s₁.offset s₁.len := by
        rw [hcontinues.delivered, hcontinues.offset, hcontinues.len, List.append_nil, hbytes]
      obtain ⟨result, e', hloop, hcomes⟩ := @ih { e with reader := file₁, engine := r₁ } s₁ left hserves hgoing
        (by rw [hcontinues.len]; exact hmost) hbytes₁ (by omega)
      rw [hcontinues.missing] at hcomes
      exact ⟨result, e', hloop, hcomes.after (by rw [hserves.reader]; exact hstarted) hcalls⟩
    rw [readLoop, hstep]
    cases hturn with
    | needInput supplied =>
      simp only
      cases hfill : r'.fill answers e.reader with
      | mk p file₁ =>
        rw [hfill] at supplied
        cases supplied with
        | failed last serves =>
          obtain ⟨s', hserves, hcontinues, hstarted⟩ := serves trivial
          exact ⟨_, _, rfl, failed_comes hgoing hmost hbytes last hserves hcontinues hstarted⟩
        | fed fine serves continues started closer => exact hthen serves continues started fine.1 closer
    | seekAndRead fresh supplied =>
      simp only
      cases hfill : r'.fillFrom answers e.reader _ _ with
      | mk p file₁ =>
        rw [hfill] at supplied
        cases supplied with
        | @failed err _ last serves =>
          refine ⟨_, _, rfl, ?_⟩
          cases hseek : answers e.reader.calls with
          | ok n =>
            obtain ⟨s', hserves, hcontinues, hstarted⟩ := serves ⟨n, hseek⟩
            exact failed_comes hgoing hmost hbytes last hserves hcontinues hstarted
          | error err' =>
            obtain ⟨k, hk, hfine, herror⟩ := last
            have hmade : e.reader.calls < file₁.calls := by
              have hcalls := hfine.1
              omega
            have hfirst : k = e.reader.calls := by
              by_contra hne
              obtain ⟨n, hok⟩ := hfine.2 e.reader.calls (Nat.le_refl _) (Nat.lt_of_le_of_ne hfine.1 (Ne.symm hne))
              rw [hseek] at hok
              cases hok
            rw [hfirst] at herror
            exact .inl ⟨⟨hgoing, by rw [h.reader]; exact fresh⟩, err, herror, rfl, hmade⟩
        | fed fine serves continues started closer => exact hthen serves continues started fine.1 closer
    | outputReady serves continues started some closer =>
      obtain ⟨s₂, r₂, out, hread, hlen, hserves, hcontinues, hstarted, _, _⟩ := serves.readOutput hC room
      simp only [hread]
      cases out with
      | nil =>
        rw [List.length_nil] at hlen
        omega
      | cons b out =>
        exact ⟨_, _, rfl, taken_comes hgoing hmost hbytes hserves (continues.trans hcontinues) (by omega)
          (hstarted.trans started)⟩
    | done all whole =>
      obtain rfl : left = [] := by
        rw [all] at hbytes
        exact List.append_right_eq_self.mp hbytes
      have hnone : missing ι plain full s = none := if_neg whole
      rw [hnone]
      exact ⟨_, _, rfl, .inr ⟨_, .ended, .spent rfl rfl, fun _ => nofun, Nat.le_refl _,
        fun hfresh => Bool.noConfusion hfresh.1⟩⟩
    | short all short =>
      obtain rfl : left = [] := by
        rw [all] at hbytes
        exact List.append_right_eq_self.mp hbytes
      have hsome : missing ι plain full s = some (.fault (.error .truncatedInput)) := if_pos short
      rw [hsome]
      exact ⟨_, _, rfl, .inr ⟨_, .lacking, .spent rfl rfl, fun _ => nofun, Nat.le_refl _,
        fun hfresh => Bool.noConfusion hfresh.1⟩⟩

/-- One read of an entry. -/
theorem Follows.read (answers : Answers ι) (hC : Obeys codec packed plain At) {fuel most : Nat} {e : EntryReader σ κ}
    {c : Cursor Byte (ReadError ι)} (hfuel : StreamReader.stepFuel packed plain + most + 1 ≤ fuel)
    (h : Follows codec packed plain At full most e c) (room : Nat) :
    ∃ result e', e.read answers fuel room = some (result, e') ∧
      Comes codec packed plain At answers full most room e c result e' := by
  rw [EntryReader.read]
  by_cases hidle : e.done = true ∨ room = 0
  · rw [if_pos hidle]
    refine ⟨_, _, rfl, .inr ⟨c, .idle ?_, h, fun _ => nofun, Nat.le_refl _, fun hfresh => ⟨hfresh, rfl⟩⟩⟩
    rcases hidle with hdone | hroom
    · cases h with
      | going serves going short bytes =>
        rw [hdone] at going
        cases going
      | spent _ spent => exact .inl spent
    · exact .inr hroom
  · rw [if_neg hidle]
    cases h with
    | spent done _ => exact absurd (.inl done) hidle
    | @going s left serves going short bytes =>
      have hroom : 0 < room := by omega
      have hgo := serves.inv.toGo_lt
      obtain ⟨s₁, r₁, out, hread, hlen, hserves, hcontinues, hstarted, _, hcloser⟩ := serves.readOutput hC room
      rw [hread]
      have hthere : s₁.delivered = s.delivered ++ out := hcontinues.delivered
      cases out with
      | nil =>
        have hbytes : s₁.delivered ++ left = rangeOf plain s₁.offset s₁.len := by
          rw [hthere, hcontinues.offset, hcontinues.len, List.append_nil, bytes]
        obtain ⟨result, e', hloop, hcomes⟩ :=
          @readLoop_comes _ _ ι _ _ _ _ answers _ hC fuel room most hroom (by omega) fuel
          { e with engine := r₁ } s₁ left hserves going (by rw [hcontinues.len]; exact short) hbytes
          (by rw [List.length_nil] at hcloser; omega)
        rw [hcontinues.missing] at hcomes
        have hfresh : Fresh { e with engine := r₁ } ↔ e.Fresh := by
          unfold Fresh
          rw [hserves.reader, serves.reader]
          show (_ ∧ s₁.reader.started = false) ↔ (_ ∧ s.reader.started = false)
          rw [hstarted]
        unfold Comes at hcomes ⊢
        rw [hfresh] at hcomes
        exact ⟨result, e', hloop, hcomes⟩
      | cons b out =>
        have hserve : 0 < s.reader.serveable := by
          rw [List.length_cons] at hlen
          omega
        exact ⟨_, _, rfl, taken_comes going short bytes hserves hcontinues (by omega)
          (hstarted.trans (serves.started hserve))⟩

/-- Any reads of an entry, one after another, are reads of its cursor. -/
theorem Follows.readAll (answers : Answers ι) (hC : Obeys codec packed plain At) {fuel most : Nat}
    (hfuel : StreamReader.stepFuel packed plain + most + 1 ≤ fuel) : ∀ (rooms : List Nat) {e : EntryReader σ κ}
    {c : Cursor Byte (ReadError ι)}, Follows codec packed plain At full most e c →
    (e.Fresh → ∃ n, answers e.reader.calls = .ok n) →
    ∃ results e' c', e.readAll answers fuel rooms = some (results, e') ∧
      Cursor.Run (FileFails answers) c rooms results c' := by
  intro rooms
  induction rooms with
  | nil => intro e c _ _; exact ⟨[], e, c, rfl, .nil⟩
  | cons room rooms ih =>
    intro e c h hready
    obtain ⟨result, e₁, hread, hcomes⟩ := h.read answers hC hfuel room
    rcases hcomes with ⟨hfresh, err, herror, _⟩ | ⟨c₁, hreads, hfollows, _, _, hthen⟩
    · obtain ⟨n, hok⟩ := hready hfresh
      rw [herror] at hok
      cases hok
    · obtain ⟨results, e', c', hall, hrun⟩ := ih hfollows fun hfresh => by
        obtain ⟨hbefore, hcalls⟩ := hthen hfresh
        rw [hcalls]
        exact hready hbefore
      refine ⟨result :: results, e', c', ?_, .cons hreads hrun⟩
      rw [EntryReader.readAll, hread]
      simp only [hall, Option.map_some]

end EntryReader

/-- Whatever room its reads are given, each of them takes some of the bytes that are left, or says
that there are none, or fails as the file did and takes nothing. -/
def EntryReads (answers : Answers ι) (answer : Except (ReadError ι) (List Byte)) (e : EntryReader σ κ) : Prop :=
  ∃ c : Cursor Byte (ReadError ι), c.spent = false ∧ c.rest = answer ∧
    ∃ enough, ∀ fuel, enough ≤ fuel → ∀ rooms, ∃ results e' c',
      e.readAll answers fuel rooms = some (results, e') ∧ c.Run (FileFails answers) rooms results c' ∧
      results.flatMap Cursor.output ++ c'.left = c.left

namespace Archive

/-- Opening a file is refused for the reason its answer gives, or the reader that comes of it reads
the bytes of the file, provided the seek of its first call does not fail. -/
theorem openEntry_reads (hC : Obeys codec packed plain At) (archive : Archive σ κ)
    (hhanded : HandedOut codec packed archive.index.stream) (hbytes : archive.reader.bytes = packed) (path : String) :
    ∃ opened file, archive.openEntry answers path = (opened, file) ∧
      ((∃ err, FailedLast answers archive.reader.calls file.calls err ∧ opened = .error (.io err)) ∨
        (∃ err, opened = .error err ∧ ReadEngine.answer ι archive.index plain path 0 u64Max = .error err) ∨
        ∃ e, opened = .ok e ∧ ((∃ n, answers file.calls = .ok n) →
          EntryReads answers (ReadEngine.answer ι archive.index plain path 0 u64Max) e)) := by
  rw [openEntry]
  rcases @File.seek_cases Byte ι answers archive.reader 0 with ⟨err, hsought, hfail⟩ | ⟨hsought, _⟩
  · rw [hsought]
    exact ⟨_, _, rfl, .inl ⟨err, hfail, rfl⟩⟩
  · rw [hsought]
    have hsame : ({ archive.reader with pos := 0, calls := archive.reader.calls + 1 } : File Byte).bytes = packed :=
      hbytes
    rcases @ReadEngine.newRange_cases _ _ ι _ _ _ _ hC _ (hhanded.readable hC) _ hsame path 0 u64Max with
      ⟨err, hnew, hanswer⟩ | ⟨engine, s, hnew, hserves, hnone, _, hanswer⟩
    · simp only [ReadEngine.new, hnew]
      exact ⟨_, _, rfl, .inr (.inl ⟨err, rfl, hanswer⟩)⟩
    · simp only [ReadEngine.new, hnew]
      refine ⟨_, _, rfl, .inr (.inr ⟨_, rfl, fun hseek => ?_⟩)⟩
      refine ⟨⟨rangeOf plain s.offset s.len, missing ι plain true s, false⟩, rfl, ?_,
        StreamReader.stepFuel packed plain + s.len + 1, fun fuel hfuel rooms => ?_⟩
      · rw [hanswer, wholeRange_eq]
      · have hfollows : EntryReader.Follows codec packed plain At true s.len { reader := _, engine, done := false }
            (⟨rangeOf plain s.offset s.len, missing ι plain true s, false⟩ : Cursor Byte (ReadError ι)) :=
          .going hserves rfl (Nat.le_refl _) (by rw [hnone, List.nil_append])
        obtain ⟨results, e', c', hall, hrun⟩ := hfollows.readAll answers hC hfuel rooms fun _ => hseek
        exact ⟨results, e', c', hall, hrun, hrun.left⟩

/-- The file of the stored archive. -/
theorem openEntry_reads_stored : ∃ opened file, stored.openEntry flaky "a" = (opened, file) ∧
    ((∃ err, FailedLast flaky 0 file.calls err ∧ opened = .error (.io err)) ∨
      (∃ err, opened = .error err ∧ (.ok [2, 3, 4] : Except (ReadError Unit) (List Byte)) = .error err) ∨
      ∃ e, opened = .ok e ∧ ((∃ n, flaky file.calls = .ok n) → EntryReads flaky (.ok [2, 3, 4]) e)) :=
  openEntry_reads (NoneDecompressor.obeys [1, 2, 3, 4, 5]) stored stored_handedOut rfl "a"

end Archive

namespace Stream

/-- A range of a stream that was read as far as its end is cut to the stream. -/
theorem missing_none {index : StreamIndex σ κ} (hread : Readable codec plain At index) (s : ReadSession σ κ)
    (hunpacked : s.reader.unpackedLen = index.unpackedLen) : missing ι plain index.unpackedLen.isSome s = none := by
  refine if_neg ?_
  rintro ⟨hsome, hshort⟩
  rw [hunpacked] at hshort
  cases hknown : index.unpackedLen with
  | none =>
    rw [hknown] at hsome
    cases hsome
  | some n =>
    have hn := hread.unpackedLen n hknown
    rw [hknown, rangeOf, seg_length, StreamReader.clampLen] at hshort
    omega

/-- A range of a stream is opened for the bytes of the range. -/
theorem openRange_follows (hC : Obeys codec packed plain At) (stream : Stream σ κ)
    (hread : Readable codec plain At stream.index) (hbytes : stream.reader.bytes = packed) (offset len : Nat) :
    ∃ e : EntryReader σ κ, stream.openRange offset len = (.ok e : Except (ReadError ι) (EntryReader σ κ)) ∧
      e.reader = stream.reader ∧
      EntryReader.Follows codec packed plain At stream.index.unpackedLen.isSome len e
        (⟨rangeOf plain offset len, none, false⟩ : Cursor Byte (ReadError ι)) := by
  obtain ⟨r, hnew, hunpacked, hrequired, hserves⟩ := Serves.start hC hread hbytes offset len
  have hfollows : EntryReader.Follows codec packed plain At r.requireFull len
      { reader := stream.reader, engine := r, done := false }
      (⟨rangeOf plain offset len, missing ι plain r.requireFull (ReadSession.start r offset len), false⟩ :
        Cursor Byte (ReadError ι)) :=
    .going (hserves r.requireFull) rfl (Nat.le_refl _) (List.nil_append _)
  rw [hrequired, missing_none hread _ hunpacked] at hfollows
  refine ⟨_, ?_, rfl, hfollows⟩
  rw [openRange, hnew]

/-- What is read of an opened range is the bytes it was opened for, or the failure of a call that was
made. -/
theorem readRange_follows (hC : Obeys codec packed plain At) {stream : Stream σ κ} {e : EntryReader σ κ}
    {offset len : Nat} (hopen : stream.openRange offset len = (.ok e : Except (ReadError ι) (EntryReader σ κ)))
    (hreader : e.reader = stream.reader)
    (hfollows : EntryReader.Follows codec packed plain At full len e
      (⟨rangeOf plain offset len, none, false⟩ : Cursor Byte (ReadError ι)))
    {interrupted : ι → Bool} (hseek : ∀ err, answers stream.reader.calls = .error err → interrupted err = false)
    {calm : Nat} (hcalm : ∀ k err, calm ≤ k → answers k = .error err → interrupted err = false) (rooms : Nat → Nat) :
    ∃ enough, ∀ fuel, enough ≤ fuel → ∃ result file,
      stream.readRange answers interrupted rooms fuel offset len = some (result, file) ∧
      (result = .ok (rangeOf plain offset len) ∨
        ∃ k err, stream.reader.calls ≤ k ∧ k < file.calls ∧ answers k = .error err ∧ interrupted err = false ∧
          result = .error (.io err)) := by
  rw [← hreader] at hseek
  refine ⟨StreamReader.stepFuel packed plain + len + calm + 1, fun fuel hfuel => ?_⟩
  have hfollowed : Cursor.Followed (EntryReader.read answers fuel) (ReadError.interrupted interrupted)
      (fun e' failure => ∃ k err, e.reader.calls ≤ k ∧ k < e'.reader.calls ∧ answers k = .error err ∧
        failure = .io err)
      (fun e => calm - e.reader.calls)
      (fun e' c => EntryReader.Follows codec packed plain At full len e' c ∧ e.reader.calls ≤ e'.reader.calls ∧
        (e'.Fresh → ∀ err, answers e'.reader.calls = .error err → interrupted err = false)) := by
    constructor
    rintro e₁ c room ⟨hfollows, hfrom, hsafe⟩ hroom
    have hlow : StreamReader.stepFuel packed plain + len + 1 ≤ fuel := by omega
    obtain ⟨result, e', hread, hcomes⟩ := hfollows.read answers hC hlow room
    refine ⟨result, e', hread, ?_⟩
    rcases hcomes with ⟨hfresh, err, herror, rfl, hmade⟩ | ⟨c', hreads, hfollows', hfailed, hle, hthen⟩
    · exact .inl ⟨_, rfl, ⟨_, err, hfrom, hmade, herror, rfl⟩, hsafe hfresh err herror⟩
    · have hmade : ∀ err, result = .error (.io err) →
          ∃ k, e.reader.calls ≤ k ∧ e₁.reader.calls ≤ k ∧ k < e'.reader.calls ∧ answers k = .error err := by
        intro err herr
        obtain ⟨k, herror, hsince, hto⟩ := hfailed err herr
        exact ⟨k, Nat.le_trans hfrom hsince, hsince, hto, herror⟩
      refine .inr ⟨c', hreads.mono ?_, ⟨hfollows', Nat.le_trans hfrom hle, fun hfresh err herror => ?_⟩,
        Nat.sub_le_sub_left hle calm, fun failure herr hagain => ?_⟩
      · rintro failure herr ⟨_, err, -, rfl⟩
        obtain ⟨k, hstart, -, hto, herror⟩ := hmade err herr
        exact ⟨k, err, hstart, hto, herror, rfl⟩
      · obtain ⟨hbefore, hcalls⟩ := hthen hfresh
        rw [hcalls] at herror
        exact hsafe hbefore err herror
      · cases failure with
        | io err =>
          obtain ⟨k, -, hsince, hto, herror⟩ := hmade err herr
          have hlow : k < calm := by
            by_contra hhigh
            rw [ReadError.interrupted, hcalm k err (by omega) herror] at hagain
            cases hagain
          show calm - e'.reader.calls < calm - _
          omega
        | fileNotFound path => cases hagain
        | fault f => cases hagain
  have hshort : (rangeOf plain offset len).length ≤ len := by
    rw [rangeOf, seg_length]
    omega
  obtain ⟨result, e', hall, hresult⟩ := hfollowed.readToEnd rooms fuel _ _ []
    ⟨hfollows, Nat.le_refl _, fun _ => hseek⟩ rfl (fun e he => by cases he) (by simp only; omega)
  rw [readRange, hopen]
  simp only [hall, Option.map_some]
  refine ⟨_, _, rfl, ?_⟩
  rcases hresult with hwhole | ⟨_, ⟨k, err, hstart, hto, herror, rfl⟩, hagain, hfailed⟩
  · exact .inl hwhole
  · rw [hreader] at hstart
    exact .inr ⟨k, err, hstart, hto, herror, hagain, hfailed⟩

/-- Reading a range of a stream gives the plain bytes of the range, or fails as a call on the file did. -/
theorem readRange_reads (hC : Obeys codec packed plain At) (stream : Stream σ κ)
    (hread : Readable codec plain At stream.index) (hbytes : stream.reader.bytes = packed) (offset len : Nat)
    {interrupted : ι → Bool} (hseek : ∀ err, answers stream.reader.calls = .error err → interrupted err = false)
    {calm : Nat} (hcalm : ∀ k err, calm ≤ k → answers k = .error err → interrupted err = false) (rooms : Nat → Nat) :
    ∃ enough, ∀ fuel, enough ≤ fuel → ∃ result file,
      stream.readRange answers interrupted rooms fuel offset len = some (result, file) ∧
      (result = .ok (rangeOf plain offset len) ∨
        ∃ k err, stream.reader.calls ≤ k ∧ k < file.calls ∧ answers k = .error err ∧ interrupted err = false ∧
          result = .error (.io err)) := by
  obtain ⟨e, hopen, hreader, hfollows⟩ := @openRange_follows _ _ ι _ _ _ _ hC stream hread hbytes offset len
  exact readRange_follows hC hopen hreader hfollows hseek hcalm rooms

/-- Three stored bytes, where any failure is one to read again after. -/
theorem readRange_reads_stored :
    let stream : Stream NoneDecompressor Empty := ⟨Archive.stored.reader, Archive.stored.index.stream⟩
    ∃ enough, ∀ fuel, enough ≤ fuel → ∃ result file,
      stream.readRange Archive.flaky (fun _ => true) (fun _ => 1) fuel 1 3 = some (result, file) ∧
        (result = .ok [2, 3, 4] ∨
          ∃ k err, 0 ≤ k ∧ k < file.calls ∧ Archive.flaky k = .error err ∧ true = false ∧
            result = .error (.io err)) := by
  intro stream
  have hcalm : ∀ k err, 3 ≤ k → Archive.flaky k = .error err → true = false := by
    intro k err hk herror
    rw [Archive.flaky, if_neg (by omega)] at herror
    cases herror
  have hobeys := NoneDecompressor.obeys [1, 2, 3, 4, 5]
  exact readRange_reads hobeys stream (Archive.stored_handedOut.readable hobeys) rfl 1 3
    (fun err herror => by cases herror) hcalm fun _ => 1

end Stream
end Iluvatar
