/-
An engine and its file, served turn by turn.

Beside the engine goes a session of a reader that was just created, which `ReadInv` says
everything about; the file stands where the session's input goes on.  Each answer to the
engine is an event of the session, or it fails and is the last call on the file.
-/
import Iluvatar.Stream.ReaderRuns
import Iluvatar.Sync.FullRange
import Iluvatar.Sync.Reader

namespace Iluvatar

open Sansio

variable {σ κ ι : Type} {codec : Codec σ κ} {packed plain : List Byte} {At : σ → Nat → Nat → Prop}
variable {answers : Answers ι} {full : Bool}

/-- The engine `r` is the reader of the session but for its flag, and the file stands where
the input goes on. -/
structure Serves (codec : Codec σ κ) (packed plain : List Byte) (At : σ → Nat → Nat → Prop) (full : Bool)
    (s : ReadSession σ κ) (r : StreamReader σ κ) (file : File Byte) : Prop where
  inv : ReadInv codec packed plain At s
  reader : r = s.reader.withFull full
  bytes : file.bytes = packed
  place : s.reader.started = true → file.pos = s.reader.compressedPos

/-- The later session reads the same range, and has delivered `out` since. -/
structure Continues (s : ReadSession σ κ) (out : List Byte) (s' : ReadSession σ κ) : Prop where
  offset : s'.offset = s.offset
  len : s'.len = s.len
  unpackedLen : s'.reader.unpackedLen = s.reader.unpackedLen
  delivered : s'.delivered = s.delivered ++ out

theorem Continues.refl (s : ReadSession σ κ) : Continues s [] s := ⟨rfl, rfl, rfl, (List.append_nil _).symm⟩

theorem Continues.trans {s s' s'' : ReadSession σ κ} {out out' : List Byte} (h : Continues s out s')
    (h' : Continues s' out' s'') : Continues s (out ++ out') s'' :=
  ⟨h'.offset.trans h.offset, h'.len.trans h.len, h'.unpackedLen.trans h.unpackedLen, by
    rw [h'.delivered, h.delivered, List.append_assoc]⟩

/-- The engine reports that the stream ends before the range does. -/
def Short (plain : List Byte) (full : Bool) (s : ReadSession σ κ) : Prop :=
  full = true ∧
    (rangeOf plain s.offset s.len).length < StreamReader.clampLen s.reader.unpackedLen s.offset s.len

/-- An engine that has just asked for input, and a file that stands where the input goes on. -/
structure Asking (codec : Codec σ κ) (packed plain : List Byte) (At : σ → Nat → Nat → Prop) (full : Bool)
    (g : Nat) (s : ReadSession σ κ) (r : StreamReader σ κ) (file : File Byte) : Prop where
  serves : Serves codec packed plain At full s r file
  wanted : s.wanted = true
  closer : s.toGo packed plain ≤ g
  moved : s.reader.eof = true → s.toGo packed plain < g

theorem Asking.recount {g : Nat} {s : ReadSession σ κ} {r : StreamReader σ κ} {file : File Byte}
    (h : Asking codec packed plain At full g s r file) (calls : Nat) :
    Asking codec packed plain At full g s r { file with calls } :=
  ⟨⟨h.serves.inv, h.serves.reader, h.serves.bytes, h.serves.place⟩, h.wanted, h.closer, h.moved⟩

/-- What an engine reports, before it is answered. -/
inductive Asked (codec : Codec σ κ) (packed plain : List Byte) (At : σ → Nat → Nat → Prop)
    (full : Bool) (s : ReadSession σ κ) (file : File Byte) : EngineRequest → StreamReader σ κ → Prop
  | needInput {s' r} (asking : Asking codec packed plain At full (s.toGo packed plain) s' r file)
      (continues : Continues s [] s') : Asked codec packed plain At full s file .needInput r
  | seekAndRead {s' r offset} (fresh : s.reader.started = false)
      (asking : Asking codec packed plain At full (s.toGo packed plain) s' r { file with pos := offset })
      (continues : Continues s [] s') : Asked codec packed plain At full s file (.seekAndRead offset bufSize) r
  | outputReady {s' r} (serves : Serves codec packed plain At full s' r file) (continues : Continues s [] s')
      (started : s'.reader.started = true) (some : 0 < s'.reader.serveable)
      (closer : s'.toGo packed plain ≤ s.toGo packed plain) : Asked codec packed plain At full s file .outputReady r
  | done {r} (all : s.delivered = rangeOf plain s.offset s.len) (whole : ¬ Short plain full s) :
      Asked codec packed plain At full s file .done r
  | short {r} (all : s.delivered = rangeOf plain s.offset s.len) (short : Short plain full s) :
      Asked codec packed plain At full s file (.error (.error .truncatedInput)) r

/-- What the calls on the file for the engine `r` come to: they bring it closer to its end, or
the last of them failed.  Where `again` holds, the engine may then be driven on. -/
inductive Supplied (codec : Codec σ κ) (packed plain : List Byte) (At : σ → Nat → Nat → Prop) (answers : Answers ι)
    (full : Bool) (again : Prop) (s : ReadSession σ κ) (file : File Byte) (r : StreamReader σ κ) :
    Except ι (StreamReader σ κ) × File Byte → Prop
  | failed {e file'} (last : FailedLast answers file.calls file'.calls e)
      (serves : again → ∃ s', Serves codec packed plain At full s' r file' ∧ Continues s [] s' ∧
        s'.reader.started = true) :
      Supplied codec packed plain At answers full again s file r (.error e, file')
  | fed {s' r' file'} (fine : Answered answers file.calls file'.calls)
      (serves : Serves codec packed plain At full s' r' file') (continues : Continues s [] s')
      (started : s'.reader.started = true) (closer : s'.toGo packed plain < s.toGo packed plain) :
      Supplied codec packed plain At answers full again s file r (.ok r', file')

/-- What an engine reports, and what answering it comes to. -/
inductive Turn (codec : Codec σ κ) (packed plain : List Byte) (At : σ → Nat → Nat → Prop) (answers : Answers ι)
    (full : Bool) (s : ReadSession σ κ) (file : File Byte) : EngineRequest → StreamReader σ κ → Prop
  | needInput {r}
      (supplied : Supplied codec packed plain At answers full True s file r (r.fill answers file)) :
      Turn codec packed plain At answers full s file .needInput r
  | seekAndRead {r offset len} (fresh : s.reader.started = false)
      (supplied : Supplied codec packed plain At answers full (∃ n, answers file.calls = .ok n) s file r
        (r.fillFrom answers file offset len)) :
      Turn codec packed plain At answers full s file (.seekAndRead offset len) r
  | outputReady {s' r} (serves : Serves codec packed plain At full s' r file) (continues : Continues s [] s')
      (started : s'.reader.started = true) (some : 0 < s'.reader.serveable)
      (closer : s'.toGo packed plain ≤ s.toGo packed plain) :
      Turn codec packed plain At answers full s file .outputReady r
  | done {r} (all : s.delivered = rangeOf plain s.offset s.len) (whole : ¬ Short plain full s) :
      Turn codec packed plain At answers full s file .done r
  | short {r} (all : s.delivered = rangeOf plain s.offset s.len) (short : Short plain full s) :
      Turn codec packed plain At answers full s file (.error (.error .truncatedInput)) r

namespace Serves

variable {s : ReadSession σ κ} {r : StreamReader σ κ} {file : File Byte}

/-- An engine's `step`, beside the session's: the flag is seen where the session is done and
its range was cut short. -/
theorem step (hC : Obeys codec packed plain At) (h : Serves codec packed plain At full s r file) {fuel : Nat}
    (hfuel : StreamReader.stepFuel packed plain ≤ fuel) :
    ∃ request r₁, r.step fuel =
        some (if request = .done ∧ 0 < r₁.rangeLeft ∧ full = true then .error (.error .truncatedInput) else request,
          r₁.withFull full) ∧
      StreamReader.Outcome codec packed plain At s.offset s.len s.delivered s.reader (some request) r₁ ∧
      (s.reader.StaysAt (some request, r₁) ∨
        s.reader.started = false ∧ request = .seekAndRead r₁.compressedPos bufSize) ∧
      ReadInv codec packed plain At
        { s with reader := r₁, wanted := s.wanted || request.wantsInput, reported := some request } := by
  obtain ⟨request, r₁, hleast⟩ := StreamReader.step_reports hC h.inv.sameCodec h.inv.range h.inv.stage
  have huntil := untilSome_mono hfuel hleast
  have hengine : r.step fuel =
      some (if request = .done ∧ 0 < r₁.rangeLeft ∧ full = true then .error (.error .truncatedInput) else request,
        r₁.withFull full) := by
    rw [h.reader, StreamReader.step, StreamReader.untilSome_withFull, huntil]
    simp only [Option.map_some]
    rw [apply_ite (fun q => (q, r₁.withFull full))]
    rfl
  have hsession : s.reader.step fuel =
      some (if request = .done ∧ 0 < r₁.rangeLeft ∧ r₁.requireFull = true then
        (.error (.error .truncatedInput), r₁) else (request, r₁)) := by
    rw [StreamReader.step, huntil]
    rfl
  by_cases hshort : request = .done ∧ 0 < r₁.rangeLeft ∧ r₁.requireFull = true
  · rw [if_pos hshort] at hsession
    exact absurd rfl ((h.inv.step hC hsession).1.fine _)
  · rw [if_neg hshort] at hsession
    obtain ⟨hout, hinv⟩ := h.inv.step hC hsession
    refine ⟨request, r₁, hengine, hout, ?_, hinv⟩
    rcases StreamReader.step_place huntil with hstay | hseek
    · exact .inl hstay
    · refine .inr ⟨Bool.eq_false_iff.mpr fun hstarted => ?_, hseek⟩
      exact StreamReader.step_seeks hC h.inv.sameCodec h.inv.range h.inv.stage hstarted huntil _ _ hseek

/-- A read of the file answers the engine, or it fails and leaves everything as it was. -/
theorem supply (answers : Answers ι) (hC : Obeys codec packed plain At)
    (h : Serves codec packed plain At full s r file) (hwanted : s.wanted = true) {room : Nat} (hroom : 0 < room) :
    (∃ e, file.supply answers room r.signalEof r.provideData = (.error e, { file with calls := file.calls + 1 }) ∧
      FailedLast answers file.calls (file.calls + 1) e) ∨
    ∃ s' r' file', file.supply answers room r.signalEof r.provideData = (.ok r', file') ∧
      Answered answers file.calls file'.calls ∧ Serves codec packed plain At full s' r' file' ∧ Continues s [] s' ∧
      s'.reader.started = true ∧
      (s'.toGo packed plain < s.toGo packed plain ∨
        s.reader.eof = true ∧ s'.toGo packed plain = s.toGo packed plain) := by
  obtain ⟨_, hstarted⟩ := h.inv.wanted hwanted
  have hpos := h.place hstarted
  rcases @File.supply_cases Byte _ ι answers file room hroom r.signalEof r.provideData with hfail | ⟨n, hfine, hgot⟩
  · exact .inl hfail
  · refine .inr ?_
    obtain ⟨s', hdrive, hinv, hoffset, hlen, hgo⟩ := h.inv.provide hC hwanted n
    rw [ReadSession.drive, if_pos hwanted, StreamReader.compressedPosition] at hdrive
    rw [h.bytes, hpos] at hgot
    cases htake : (packed.drop s.reader.compressedPos).take (n + 1) with
    | nil =>
      rw [htake] at hdrive hgot
      obtain rfl := Option.some.inj hdrive
      refine ⟨_, _, _, hgot, hfine, ⟨hinv, ?_, rfl, fun _ => rfl⟩, ?_, hstarted, hgo⟩
      · rw [h.reader, StreamReader.signalEof_withFull]
      · exact ⟨rfl, rfl, rfl, (List.append_nil _).symm⟩
    | cons b bs =>
      rw [htake] at hdrive hgot
      obtain rfl := Option.some.inj hdrive
      refine ⟨_, _, _, hgot, hfine, ⟨hinv, ?_, rfl, fun _ => rfl⟩, ?_, hstarted, hgo⟩
      · rw [h.reader, StreamReader.provideData_withFull]
      · exact ⟨rfl, rfl, rfl, (List.append_nil _).symm⟩

/-- Taking output is an event of the session. -/
theorem readOutput (hC : Obeys codec packed plain At) (h : Serves codec packed plain At full s r file) (n : Nat) :
    ∃ s' r' out, r.readOutput n = (out, r') ∧ out.length = min s.reader.serveable n ∧
      Serves codec packed plain At full s' r' file ∧ Continues s out s' ∧
      s'.reader.started = s.reader.started ∧ s'.reader.rangeLeft = s.reader.rangeLeft - out.length ∧
      s'.toGo packed plain + out.length = s.toGo packed plain := by
  obtain ⟨hserved, hn⟩ := StreamReader.readOutput_served s.reader n
  rcases hread : s.reader.readOutput n with ⟨out, r₁⟩
  rw [hread] at hserved hn
  have hdrive : s.drive packed (.read n) = some { s with reader := r₁, delivered := s.delivered ++ out } := by
    rw [ReadSession.drive, hread]
  have hsame := hserved.same
  simp only at hsame hn
  refine ⟨_, r₁.withFull full, out, ?_, hn, ⟨ReadInv.drive hC h.inv hdrive, rfl, h.bytes, ?_⟩,
    ⟨rfl, rfl, ?_, rfl⟩, ?_, hserved.rangeLeft, ?_⟩
  · rw [h.reader, StreamReader.readOutput_withFull, hread]
    rfl
  · rw [hsame]
    exact h.place
  · rw [hsame]
  · rw [hsame]
  · have hleft := hserved.rangeLeft
    have hwithin : s.reader.serveable ≤ s.reader.rangeLeft := by
      rw [StreamReader.serveable_eq]
      exact Nat.min_le_right _ _
    have hwork : StreamReader.work packed plain r₁ = StreamReader.work packed plain s.reader := by
      rw [hsame]
      rfl
    have heof : r₁.eof = s.reader.eof := by rw [hsame]
    simp only at hleft
    simp only [ReadSession.toGo, hwork, heof, hleft]
    omega

/-- Something to serve there is only once the engine was started. -/
theorem started (h : Serves codec packed plain At full s r file) (hserve : 0 < s.reader.serveable) :
    s.reader.started = true := by
  rcases h.inv.stage with ⟨hfresh, _⟩ | ⟨_, hs, _⟩
  · rw [StreamReader.serveable_eq, StreamReader.bufferedLen, hfresh.outputBuf] at hserve
    simp at hserve
  · exact hs.started

/-- What an engine reports, and that it is no further from its end than before. -/
theorem asked (hC : Obeys codec packed plain At)
    (h : Serves codec packed plain At full s r file) {fuel : Nat}
    (hfuel : StreamReader.stepFuel packed plain ≤ fuel) :
    ∃ request r', r.step fuel = some (request, r') ∧
      Asked codec packed plain At full s file request r' := by
  obtain ⟨request, r₁, hstep, hout, hplace, hinv⟩ := h.step hC hfuel
  refine ⟨_, _, hstep, ?_⟩
  have hleft := hout.frame.rangeLeft
  have hcontinues : Continues s []
      { s with reader := r₁, wanted := s.wanted || request.wantsInput, reported := some request } :=
    ⟨rfl, rfl, hout.frame.unpackedLen, (List.append_nil _).symm⟩
  have hgo : ∀ wanted reported, ReadSession.toGo packed plain { s with reader := r₁, wanted, reported } +
      StreamReader.work packed plain s.reader = s.toGo packed plain + StreamReader.work packed plain r₁ := by
    intro wanted reported
    simp only [ReadSession.toGo, hleft, hout.frame.eof]
    omega
  have hwork := hout.work_le
  have hless := hgo (s.wanted || request.wantsInput) (some request)
  cases request with
  | needInput =>
    obtain ⟨hdrained, hmoved⟩ := hout.needInput rfl
    rw [if_neg (by simp)]
    refine .needInput ⟨⟨hinv, rfl, h.bytes, fun _ => ?_⟩, by simp [EngineRequest.wantsInput], by omega,
      fun heof => ?_⟩ hcontinues
    · obtain ⟨hstarted, hpos, _⟩ := hplace.resolve_right (by simp)
      rw [hpos]
      exact h.place (hstarted.symm.trans hdrained.2)
    · have := hmoved heof
      omega
  | seekAndRead a b =>
    obtain ⟨hdrained, hmoved⟩ := hout.seekAndRead a b rfl
    rw [if_neg (by simp)]
    obtain ⟨hfresh, rfl, rfl⟩ : s.reader.started = false ∧ a = r₁.compressedPos ∧ b = bufSize := by
      rcases hplace with ⟨_, _, hnot⟩ | ⟨hfresh, hseek⟩
      · exact absurd rfl (hnot a b)
      · exact ⟨hfresh, by simpa using hseek⟩
    exact .seekAndRead hfresh ⟨⟨hinv, rfl, h.bytes, fun _ => rfl⟩, by simp [EngineRequest.wantsInput],
      by omega, fun _ => by omega⟩ hcontinues
  | outputReady =>
    rw [if_neg (by simp)]
    have hserves : Serves codec packed plain At full
        { s with
          reader := r₁
          wanted := s.wanted || EngineRequest.outputReady.wantsInput
          reported := some .outputReady }
        (r₁.withFull full) file := by
      refine ⟨hinv, rfl, h.bytes, fun hstarted => ?_⟩
      obtain ⟨hsame, hpos, _⟩ := hplace.resolve_right (by simp)
      simp only at hpos hsame
      rw [hpos]
      exact h.place (hsame.symm.trans hstarted)
    exact .outputReady hserves hcontinues (hserves.started (hout.outputReady rfl)) (hout.outputReady rfl) (by omega)
  | done =>
    have hall := hinv.done rfl
    have hrange := hinv.range.rangeLeft
    have htarget := hinv.range.targetLen
    have hunpacked := hout.frame.unpackedLen
    simp only at hall hrange htarget
    rw [hunpacked] at htarget
    have hshort : (EngineRequest.done = .done ∧ 0 < r₁.rangeLeft ∧ full = true) ↔ Short plain full s := by
      rw [Short, ← hall, ← htarget]
      constructor
      · rintro ⟨_, hpos, hfull⟩
        exact ⟨hfull, by omega⟩
      · rintro ⟨hfull, hpos⟩
        exact ⟨rfl, by omega, hfull⟩
    by_cases hcut : EngineRequest.done = .done ∧ 0 < r₁.rangeLeft ∧ full = true
    · rw [if_pos hcut]
      exact .short hall (hshort.mp hcut)
    · rw [if_neg hcut]
      exact .done hall fun h => hcut (hshort.mpr h)
  | error f => exact absurd rfl (hout.fine f)

/-- What a read comes to for an engine that has just asked for input. -/
theorem supplied (hC : Obeys codec packed plain At) {s₁ : ReadSession σ κ} {file₁ : File Byte} {again : Prop}
    (h : Asking codec packed plain At full (s.toGo packed plain) s₁ r file₁)
    (hfine : Answered answers file.calls file₁.calls) (hcontinues : Continues s [] s₁) {room : Nat} (hroom : 0 < room) :
    Supplied codec packed plain At answers full again s file r
      (file₁.supply answers room r.signalEof r.provideData) := by
  rcases h.serves.supply answers hC h.wanted hroom with
    ⟨e, hsupply, hfail⟩ | ⟨s', r', file', hsupply, hfine', hserves, hcontinues', hstarted, hgo⟩
  · rw [hsupply]
    exact .failed (hfine.failedLast hfail) fun _ =>
      ⟨s₁, ⟨h.serves.inv, h.serves.reader, h.serves.bytes, h.serves.place⟩, hcontinues,
        (h.serves.inv.wanted h.wanted).2⟩
  · rw [hsupply]
    refine .fed (hfine.trans hfine') hserves (hcontinues.trans hcontinues') hstarted ?_
    have hcloser := h.closer
    rcases hgo with hless | ⟨heof, hsame⟩
    · omega
    · have := h.moved heof
      omega

theorem turn (answers : Answers ι) (hC : Obeys codec packed plain At)
    (h : Serves codec packed plain At full s r file) {fuel : Nat}
    (hfuel : StreamReader.stepFuel packed plain ≤ fuel) :
    ∃ request r', r.step fuel = some (request, r') ∧
      Turn codec packed plain At answers full s file request r' := by
  obtain ⟨request, r', hstep, hasked⟩ := h.asked hC hfuel
  refine ⟨request, r', hstep, ?_⟩
  cases hasked with
  | needInput asking continues => exact .needInput (supplied hC asking (.refl _) continues (by decide))
  | @seekAndRead s' _ offset fresh asking continues =>
    refine .seekAndRead fresh ?_
    rcases @File.seek_cases Byte ι answers file offset with ⟨e, hseek, hfail⟩ | ⟨hseek, hfine⟩
    · rw [StreamReader.fillFrom, hseek]
      refine .failed hfail ?_
      rintro ⟨n, hok⟩
      obtain ⟨k, hk, _, herror⟩ := hfail
      obtain rfl : file.calls = k := by omega
      rw [hok] at herror
      cases herror
    · have hroom : 0 < min bufSize bufSize := by decide
      rw [StreamReader.fillFrom, hseek]
      exact supplied hC (asking.recount _) hfine continues hroom
  | outputReady serves continues started some closer => exact .outputReady serves continues started some closer
  | done all whole => exact .done all whole
  | short all short => exact .short all short

end Serves
end Iluvatar
