/-
Polling an entry of an archive.

Whatever a poll comes to, the reader keeps what the engine asked of the file until the file
has answered, and so the next poll goes on from there: nothing is asked twice, and nothing
that came is lost.  A poll is pending only where its last call on the file was.
-/
import Iluvatar.Sync.Entries
import Iluvatar.Tokio.Reader

namespace Iluvatar.Tokio

open Sansio

variable {σ κ ι : Type} {codec : Codec σ κ} {packed plain : List Byte} {At : σ → Nat → Nat → Prop}
variable {polling : Polling ι} {full : Bool}

/-- A call on the file that failed is what a poll fails with. -/
def PollFails (polling : Polling ι) (e : ReadError ι) : Prop :=
  ∃ k err, e = .io err ∧ (polling.read k = .failed err ∨ polling.start k = .error err)

/-- The states before the engine is driven again, counted. -/
def PollState.rank : PollState → Nat
  | .driveEngine => 4
  | .startSeek _ _ => 3
  | .waitSeek _ => 2
  | .pendingRead _ => 1
  | .done => 0

theorem PollState.rank_le (state : PollState) : state.rank ≤ 4 := by
  cases state <;> simp [PollState.rank]

namespace EntryReader

/-- The reader stands where the session goes on, at most `g` before its end. -/
inductive Stands (codec : Codec σ κ) (packed plain : List Byte) (At : σ → Nat → Nat → Prop) (full : Bool)
    (g : Nat) (s : ReadSession σ κ) : EntryReader σ κ → Prop
  | driveEngine {file engine} (serves : Serves codec packed plain At full s engine file.toFile)
      (closer : s.toGo packed plain ≤ g) : Stands codec packed plain At full g s ⟨file, engine, .driveEngine⟩
  | startSeek {file engine offset room} (hroom : 0 < room)
      (asking : Asking codec packed plain At full g s engine { file.toFile with pos := offset }) :
      Stands codec packed plain At full g s ⟨file, engine, .startSeek offset room⟩
  | waitSeek {file engine target room} (hroom : 0 < room) (seeking : file.seeking = some target)
      (asking : Asking codec packed plain At full g s engine { file.toFile with pos := target }) :
      Stands codec packed plain At full g s ⟨file, engine, .waitSeek room⟩
  | pendingRead {file engine room} (hroom : 0 < room)
      (asking : Asking codec packed plain At full g s engine file.toFile) :
      Stands codec packed plain At full g s ⟨file, engine, .pendingRead room⟩

/-- The reader is about to serve what the cursor has left. -/
inductive Follows (codec : Codec σ κ) (packed plain : List Byte) (At : σ → Nat → Nat → Prop) (full : Bool)
    (g : Nat) : EntryReader σ κ → Cursor Byte (ReadError ι) → Prop
  | going {e s left} (stands : Stands codec packed plain At full g s e)
      (bytes : s.delivered ++ left = rangeOf plain s.offset s.len) :
      Follows codec packed plain At full g e ⟨left, missing ι plain full s, false⟩
  | spent {e c} (done : e.state = .done) (spent : c.spent = true) : Follows codec packed plain At full g e c

variable {g g' : Nat}

theorem Stands.mono {s : ReadSession σ κ} {e : EntryReader σ κ} (h : Stands codec packed plain At full g s e)
    (hle : g ≤ g') : Stands codec packed plain At full g' s e := by
  have hmono : ∀ {engine : StreamReader σ κ} {file : File Byte}, Asking codec packed plain At full g s engine file →
      Asking codec packed plain At full g' s engine file := fun asking =>
    ⟨asking.serves, asking.wanted, Nat.le_trans asking.closer hle,
      fun heof => Nat.lt_of_lt_of_le (asking.moved heof) hle⟩
  cases h with
  | driveEngine serves closer => exact .driveEngine serves (Nat.le_trans closer hle)
  | startSeek hroom asking => exact .startSeek hroom (hmono asking)
  | waitSeek hroom seeking asking => exact .waitSeek hroom seeking (hmono asking)
  | pendingRead hroom asking => exact .pendingRead hroom (hmono asking)

theorem Follows.mono {e : EntryReader σ κ} {c : Cursor Byte (ReadError ι)}
    (h : Follows codec packed plain At full g e c) (hle : g ≤ g') : Follows codec packed plain At full g' e c := by
  cases h with
  | going stands bytes => exact .going (stands.mono hle) bytes
  | spent done spent => exact .spent done spent

/-- What the reader stands at waiting for is what call `k` on the file says is pending. -/
def Waits (polling : Polling ι) (e : EntryReader σ κ) (k : Nat) : Prop :=
  match e.state with
  | .waitSeek _ => polling.complete k = .pending
  | .pendingRead _ => polling.read k = .pending
  | _ => False

/-- What a poll comes to whose calls on the file are numbered from `first`. -/
def Comes (codec : Codec σ κ) (packed plain : List Byte) (At : σ → Nat → Nat → Prop) (polling : Polling ι)
    (full : Bool) (g room first : Nat) (c : Cursor Byte (ReadError ι)) (result : Poll (ReadError ι) (List Byte))
    (e' : EntryReader σ κ) : Prop :=
  ∃ c', c.Polls (PollFails polling) room result c' ∧ Follows codec packed plain At full g e' c' ∧
    (result = .pending → ∃ k, first ≤ k ∧ e'.reader.calls = k + 1 ∧ Waits polling e' k)

theorem Comes.mono {room first first' : Nat} {c : Cursor Byte (ReadError ι)}
    {result : Poll (ReadError ι) (List Byte)} {e' : EntryReader σ κ}
    (h : Comes codec packed plain At polling full g room first c result e') (hle : g ≤ g') (hfirst : first' ≤ first) :
    Comes codec packed plain At polling full g' room first' c result e' := by
  obtain ⟨c', hpolls, hfollows, hwaits⟩ := h
  refine ⟨c', hpolls, hfollows.mono hle, fun hpending => ?_⟩
  obtain ⟨k, hk, hcalls, hwait⟩ := hwaits hpending
  exact ⟨k, Nat.le_trans hfirst hk, hcalls, hwait⟩

/-- What a poll takes continues what was polled before. -/
theorem taken_comes {room first : Nat} {file : PolledFile Byte} {s s' : ReadSession σ κ} {left out : List Byte}
    {b : Byte} {r : StreamReader σ κ} (hbytes : s.delivered ++ left = rangeOf plain s.offset s.len)
    (hserves : Serves codec packed plain At full s' r file.toFile) (hcontinues : Continues s (b :: out) s')
    (hroom : (b :: out).length ≤ room) (hcloser : s'.toGo packed plain ≤ g) :
    Comes codec packed plain At polling full g room first ⟨left, missing ι plain full s, false⟩ (.ready (b :: out))
      ⟨file, r, .driveEngine⟩ := by
  have hprefix := hserves.inv.range.delivered
  rw [hcontinues.delivered, hcontinues.offset, hcontinues.len, ← hbytes] at hprefix
  obtain ⟨rest, rfl⟩ := (List.prefix_append_right_inj _).mp hprefix
  refine ⟨_, .ready (.taken (List.cons_ne_nil _ _) hroom), ?_, fun h => by cases h⟩
  rw [← hcontinues.missing]
  refine .going (.driveEngine hserves hcloser) ?_
  rw [hcontinues.delivered, hcontinues.offset, hcontinues.len, ← hbytes, List.append_assoc]

/-- A poll that stopped at the file leaves the reader where it can go on. -/
theorem failed_comes {room first k : Nat} {s : ReadSession σ κ} {left : List Byte} {err : ι} {e' : EntryReader σ κ}
    (hbytes : s.delivered ++ left = rangeOf plain s.offset s.len)
    (hfails : polling.read k = .failed err ∨ polling.start k = .error err)
    (hstands : Stands codec packed plain At full g s e') :
    Comes codec packed plain At polling full g room first ⟨left, missing ι plain full s, false⟩ (.failed (.io err))
      e' :=
  ⟨_, .failed (.failed ⟨k, err, rfl, hfails⟩), .going hstands hbytes, fun h => by cases h⟩

theorem pending_comes {room first k : Nat} {s : ReadSession σ κ} {left : List Byte} {e' : EntryReader σ κ}
    (hbytes : s.delivered ++ left = rangeOf plain s.offset s.len) (hfirst : first ≤ k)
    (hcalls : e'.reader.calls = k + 1) (hwaits : Waits polling e' k)
    (hstands : Stands codec packed plain At full g s e') :
    Comes codec packed plain At polling full g room first ⟨left, missing ι plain full s, false⟩ .pending e' :=
  ⟨_, .pending, .going hstands hbytes, fun _ => ⟨k, hfirst, hcalls, hwaits⟩⟩

/-- The bytes a read is ready with are what the engine asked for. -/
theorem ready_stands (hC : Obeys codec packed plain At) {s : ReadSession σ κ} {r : StreamReader σ κ}
    {f : PolledFile Byte} {file : File Byte} {data : List Byte} {room more : Nat} (hroom : 0 < room)
    (asking : Asking codec packed plain At full g s r f.toFile)
    (hread : @File.read Byte ι (fun _ => .ok more) f.toFile room = (.ok data, file)) :
    ∃ s', Continues s [] s' ∧ 0 < g ∧ Stands codec packed plain At full (g - 1) s'
      ⟨{ f with toFile := file }, if data = [] then r.signalEof else r.provideData data, .driveEngine⟩ := by
  rcases asking.serves.supply (fun _ => Except.ok more : Answers ι) hC asking.wanted hroom with
    ⟨e, _, k, _, _, herror⟩ | ⟨s', r', file', hsupply, _, hserves, hcontinues, _, hgo⟩
  · cases herror
  · have hmade : r' = (if data = [] then r.signalEof else r.provideData data) ∧ file' = file := by
      rw [File.supply, hread] at hsupply
      cases data with
      | nil =>
        cases hsupply
        exact ⟨(if_pos rfl).symm, rfl⟩
      | cons b data =>
        cases hsupply
        exact ⟨(if_neg (List.cons_ne_nil _ _)).symm, rfl⟩
    obtain ⟨rfl, rfl⟩ := hmade
    have hcloser := asking.closer
    have hmoved := asking.moved
    have hless : s'.toGo packed plain < g := by
      rcases hgo with hless | ⟨heof, hsame⟩
      · omega
      · have := hmoved heof
        omega
    exact ⟨s', hcontinues, by omega, .driveEngine hserves (by omega)⟩

theorem pollLoop_comes (hC : Obeys codec packed plain At) {fuel room : Nat} (hroom : 0 < room)
    (hfuel : StreamReader.stepFuel packed plain ≤ fuel) (hcomplete : ∀ k err, polling.complete k ≠ .failed err) :
    ∀ (rounds : Nat) {g : Nat} {e : EntryReader σ κ} {s : ReadSession σ κ} {left : List Byte},
      Stands codec packed plain At full g s e → s.delivered ++ left = rangeOf plain s.offset s.len →
      4 * g + e.state.rank < rounds →
      ∃ result e', e.pollLoop polling fuel room rounds = some (result, e') ∧
        Comes codec packed plain At polling full g room e.reader.calls ⟨left, missing ι plain full s, false⟩
          result e' := by
  intro rounds
  induction rounds with
  | zero => intro g e s left _ _ hrounds; exact absurd hrounds (Nat.not_lt_zero _)
  | succ rounds ih =>
    intro g e s left h hbytes hrounds
    have hthen : ∀ {g₁ : Nat} {s₁ : ReadSession σ κ} {e₁ : EntryReader σ κ},
        Stands codec packed plain At full g₁ s₁ e₁ → Continues s [] s₁ → g₁ ≤ g →
        e.reader.calls ≤ e₁.reader.calls → 4 * g₁ + e₁.state.rank < rounds →
        ∃ result e', e₁.pollLoop polling fuel room rounds = some (result, e') ∧
          Comes codec packed plain At polling full g room e.reader.calls ⟨left, missing ι plain full s, false⟩
            result e' := by
      intro g₁ s₁ e₁ hstands hcontinues hle hcalls hfewer
      have hbytes₁ : s₁.delivered ++ left = rangeOf plain s₁.offset s₁.len := by
        rw [hcontinues.delivered, hcontinues.offset, hcontinues.len, List.append_nil, hbytes]
      obtain ⟨result, e', hloop, hcomes⟩ := ih hstands hbytes₁ hfewer
      rw [hcontinues.missing] at hcomes
      exact ⟨result, e', hloop, hcomes.mono hle hcalls⟩
    rw [pollLoop]
    cases h with
    | @driveEngine file engine serves closer =>
      obtain ⟨s₁, r₁, out, hread, hlen, hserves, hcontinues, _, _, hgo⟩ := serves.readOutput hC room
      simp only [hread]
      cases out with
      | cons b out => exact ⟨_, _, rfl, taken_comes hbytes hserves hcontinues (by omega) (by omega)⟩
      | nil =>
        obtain ⟨request, r', hstep, hasked⟩ := hserves.asked hC hfuel
        simp only [hstep]
        rw [List.length_nil] at hgo
        simp only [PollState.rank] at hrounds
        cases hasked with
        | needInput asking continues =>
          exact hthen (.pendingRead (by decide) asking) (hcontinues.trans continues) (by omega) (Nat.le_refl _)
            (by simp only [PollState.rank]; omega)
        | seekAndRead _ asking continues =>
          exact hthen (.startSeek (by decide) asking) (hcontinues.trans continues) (by omega) (Nat.le_refl _)
            (by simp only [PollState.rank]; omega)
        | outputReady serves continues _ some closer =>
          obtain ⟨s₂, r₂, out, hread, hlen, hserves₂, hcontinues₂, _, _, hgo₂⟩ := serves.readOutput hC room
          simp only [hread]
          cases out with
          | nil =>
            rw [List.length_nil] at hlen
            omega
          | cons b out =>
            exact ⟨_, _, rfl, taken_comes hbytes hserves₂ ((hcontinues.trans continues).trans hcontinues₂) (by omega)
              (by omega)⟩
        | done all whole =>
          rw [hcontinues.offset, hcontinues.len, hcontinues.delivered, List.append_nil] at all
          obtain rfl : left = [] := by
            rw [all] at hbytes
            exact List.append_right_eq_self.mp hbytes
          have hnone : missing ι plain full s₁ = none := if_neg whole
          rw [← hcontinues.missing, hnone]
          exact ⟨_, _, rfl, _, .ready .ended, .spent rfl rfl, fun h => by cases h⟩
        | short all short =>
          rw [hcontinues.offset, hcontinues.len, hcontinues.delivered, List.append_nil] at all
          obtain rfl : left = [] := by
            rw [all] at hbytes
            exact List.append_right_eq_self.mp hbytes
          have hsome : missing ι plain full s₁ = some (.fault (.error .truncatedInput)) := if_pos short
          rw [← hcontinues.missing, hsome]
          exact ⟨_, _, rfl, _, .failed .lacking, .spent rfl rfl, fun h => by cases h⟩
    | @startSeek file engine offset readLen hreadLen asking =>
      simp only [PollState.rank] at hrounds
      rcases PolledFile.startSeek_cases polling file offset with ⟨err, hseek, hfail⟩ | hseek
      · simp only [hseek]
        exact ⟨_, _, rfl, failed_comes hbytes (.inr hfail) (.startSeek hreadLen (asking.recount _))⟩
      · simp only [hseek]
        exact hthen (.waitSeek hreadLen rfl (asking.recount _)) (.refl s) (Nat.le_refl _) (Nat.le_succ _)
          (by simp only [PollState.rank]; omega)
    | @waitSeek file engine target readLen hreadLen seeking asking =>
      simp only [PollState.rank] at hrounds
      rcases PolledFile.pollComplete_cases polling file with ⟨hseek, hwaits⟩ | ⟨err, hfail⟩ | hseek
      · simp only [hseek]
        exact ⟨_, _, rfl, pending_comes hbytes (Nat.le_refl _) rfl hwaits
          (.waitSeek hreadLen seeking (asking.recount _))⟩
      · exact absurd hfail (hcomplete _ _)
      · rw [seeking] at hseek
        simp only [hseek]
        exact hthen (.pendingRead hreadLen (asking.recount _)) (.refl s) (Nat.le_refl _) (Nat.le_succ _)
          (by simp only [PollState.rank]; omega)
    | @pendingRead file engine readLen hreadLen asking =>
      simp only [PollState.rank] at hrounds
      rcases PolledFile.pollRead_cases polling file readLen with
        ⟨hread, hwaits⟩ | ⟨err, hread, hfail⟩ | ⟨more, data, file', hread, hfile⟩
      · simp only [hread]
        exact ⟨_, _, rfl, pending_comes hbytes (Nat.le_refl _) rfl hwaits
          (.pendingRead hreadLen (asking.recount _))⟩
      · simp only [hread]
        exact ⟨_, _, rfl, failed_comes hbytes (.inl hfail) (.pendingRead hreadLen (asking.recount _))⟩
      · have hcalls : file'.calls = file.calls + 1 := by
          cases hfile
          rfl
        obtain ⟨s', hcontinues, hpos, hstands⟩ := ready_stands hC hreadLen asking hfile
        simp only [hread]
        cases data with
        | nil =>
          exact hthen hstands hcontinues (Nat.sub_le _ _) (by rw [hcalls]; exact Nat.le_succ _)
            (by simp only [PollState.rank]; omega)
        | cons b data =>
          exact hthen hstands hcontinues (Nat.sub_le _ _) (by rw [hcalls]; exact Nat.le_succ _)
            (by simp only [PollState.rank]; omega)

/-- One poll of an entry. -/
theorem Follows.pollRead (hC : Obeys codec packed plain At) {fuel : Nat} {e : EntryReader σ κ}
    {c : Cursor Byte (ReadError ι)} (hfuel : StreamReader.stepFuel packed plain ≤ fuel) (hrounds : 4 * g + 4 < fuel)
    (hcomplete : ∀ k err, polling.complete k ≠ .failed err) (h : Follows codec packed plain At full g e c)
    (room : Nat) :
    ∃ result e', e.pollRead polling fuel room = some (result, e') ∧
      Comes codec packed plain At polling full g room e.reader.calls c result e' := by
  rw [EntryReader.pollRead]
  by_cases hroom : room = 0
  · rw [if_pos hroom]
    exact ⟨_, _, rfl, c, .ready (.idle (.inr hroom)), h, fun h => by cases h⟩
  · rw [if_neg hroom]
    cases h with
    | going stands bytes =>
      have hrank := e.state.rank_le
      exact pollLoop_comes hC (by omega) hfuel hcomplete fuel stands bytes (by omega)
    | spent done spent =>
      obtain ⟨rounds, rfl⟩ : ∃ rounds, fuel = rounds + 1 := ⟨fuel - 1, by omega⟩
      rw [pollLoop]
      simp only [done]
      exact ⟨_, _, rfl, c, .ready (.idle (.inl spent)), .spent done spent, fun h => by cases h⟩

/-- Any polls of an entry, one after another, are polls of its cursor. -/
theorem Follows.pollAll (hC : Obeys codec packed plain At) {fuel : Nat}
    (hfuel : StreamReader.stepFuel packed plain ≤ fuel) (hrounds : 4 * g + 4 < fuel)
    (hcomplete : ∀ k err, polling.complete k ≠ .failed err) : ∀ (rooms : List Nat) {e : EntryReader σ κ}
    {c : Cursor Byte (ReadError ι)}, Follows codec packed plain At full g e c →
    ∃ results e' c', e.pollAll polling fuel rooms = some (results, e') ∧
      c.PollRun (PollFails polling) rooms results c' ∧ Follows codec packed plain At full g e' c' := by
  intro rooms
  induction rooms with
  | nil => intro e c h; exact ⟨[], e, c, rfl, .nil, h⟩
  | cons room rooms ih =>
    intro e c h
    obtain ⟨result, e₁, hpoll, c₁, hpolls, hfollows, _⟩ := h.pollRead hC hfuel hrounds hcomplete room
    obtain ⟨results, e', c', hall, hrun, hfollows'⟩ := ih hfollows
    refine ⟨result :: results, e', c', ?_, .cons hpolls hrun, hfollows'⟩
    rw [EntryReader.pollAll, hpoll]
    simp only [hall, Option.map_some]

/-- Whatever room its polls are given, each of them takes some of the bytes that are left, or says
that there are none, or fails as the file did, or is pending; and it is pending only where the
last call it made on the file, the read or the seek it stands at, is. -/
def Polled (polling : Polling ι) (answer : Except (ReadError ι) (List Byte)) (e : EntryReader σ κ) : Prop :=
  ∃ c : Cursor Byte (ReadError ι), c.spent = false ∧ c.rest = answer ∧
    ∃ enough, ∀ fuel, enough ≤ fuel → ∀ rooms room, ∃ results e' c' result e'',
      e.pollAll polling fuel rooms = some (results, e') ∧ c.PollRun (PollFails polling) rooms results c' ∧
      results.flatMap Cursor.polled ++ c'.left = c.left ∧ e'.pollRead polling fuel room = some (result, e'') ∧
      (result = .pending → ∃ k, e'.reader.calls ≤ k ∧ e''.reader.calls = k + 1 ∧ Waits polling e'' k)

/-- A reader of an entry, wherever its file stands: the polls read the bytes of the entry. -/
theorem overFile_polled (hC : Obeys codec packed plain At) (hcomplete : ∀ k err, polling.complete k ≠ .failed err)
    (index : ArchiveIndex σ κ) (hhanded : HandedOut codec packed index.stream) (file : PolledFile Byte)
    (hbytes : file.bytes = packed) (path : String) :
    (∃ err, @ReadEngine.new _ _ ι index path = .error err ∧
      ReadEngine.answer ι index plain path 0 u64Max = .error err) ∨
    ∃ engine, @ReadEngine.new _ _ ι index path = .ok engine ∧
      Polled polling (ReadEngine.answer ι index plain path 0 u64Max) (overFile file engine) := by
  rcases @ReadEngine.newRange_cases _ _ ι _ _ _ _ hC _ (hhanded.readable hC) _ hbytes path 0 u64Max with
    ⟨err, hnew, hanswer⟩ | ⟨engine, s, hnew, hserves, hnone, _, hanswer⟩
  · exact .inl ⟨err, hnew, hanswer⟩
  · refine .inr ⟨engine, hnew, ⟨rangeOf plain s.offset s.len, missing ι plain true s, false⟩, rfl, ?_,
      StreamReader.stepFuel packed plain + 4 * s.toGo packed plain + 5, fun fuel hfuel rooms room => ?_⟩
    · rw [hanswer, wholeRange_eq]
    · have hfollows : Follows codec packed plain At true (s.toGo packed plain) (overFile file engine)
          (⟨rangeOf plain s.offset s.len, missing ι plain true s, false⟩ : Cursor Byte (ReadError ι)) :=
        .going (.driveEngine hserves (Nat.le_refl _)) (by rw [hnone, List.nil_append])
      have hsteps : StreamReader.stepFuel packed plain ≤ fuel := by omega
      obtain ⟨results, e', c', hall, hrun, hfollows'⟩ := hfollows.pollAll hC hsteps (by omega) hcomplete rooms
      obtain ⟨result, e'', hpoll, _, _, _, hwaits⟩ := hfollows'.pollRead hC hsteps (by omega) hcomplete room
      exact ⟨results, e', c', result, e'', hall, hrun, hrun.left, hpoll, hwaits⟩

/-- Every other read is pending, and the seek has to be started twice. -/
def dozing : Polling Unit where
  read := fun k => if k % 2 = 0 then .pending else .ready 1
  start := fun k => if k = 0 then .error () else .ok ()
  complete := fun k => if k < 5 then .pending else .ready ()

theorem dozing_completes (k : Nat) (err : Unit) : dozing.complete k ≠ .failed err := by
  unfold dozing
  simp only
  split <;> simp

/-- Three stored bytes. -/
theorem overFile_polled_stored :
    (∃ err, @ReadEngine.new _ _ Unit Archive.stored.index "a" = .error err ∧
      (.ok [2, 3, 4] : Except (ReadError Unit) (List Byte)) = .error err) ∨
    ∃ engine, @ReadEngine.new _ _ Unit Archive.stored.index "a" = .ok engine ∧
      Polled dozing (.ok [2, 3, 4]) (overFile { Archive.stored.reader with seeking := none } engine) :=
  overFile_polled (NoneDecompressor.obeys [1, 2, 3, 4, 5]) dozing_completes
    Archive.stored.index Archive.stored_handedOut { Archive.stored.reader with seeking := none } rfl "a"

end EntryReader
end Iluvatar.Tokio
