/-
Reading a range of a file out of an archive.

Over an index that was handed out, and whatever short reads the file makes, the call
returns what the plain text says, or the failure of the last call on the file.
-/
import Iluvatar.Engine.HandedOut
import Iluvatar.Sync.Serving

namespace Iluvatar

open Sansio

variable {σ κ ι β : Type} {codec : Codec σ κ} {packed plain : List Byte} {At : σ → Nat → Nat → Prop}
variable {answers : Answers ι} {full : Bool}

/-- Every call was answered and the result is `answer`, or the last one failed and the result
is its failure. -/
def Returns (answers : Answers ι) (m n : Nat) (answer result : Except (ReadError ι) β) : Prop :=
  (Answered answers m n ∧ result = answer) ∨ ∃ e, FailedLast answers m n e ∧ result = .error (.io e)

theorem Returns.after {m n k : Nat} {answer result : Except (ReadError ι) β} (h : Answered answers m n)
    (hreturns : Returns answers n k answer result) : Returns answers m k answer result := by
  rcases hreturns with ⟨hfine, hresult⟩ | ⟨e, hfail, hresult⟩
  · exact .inl ⟨h.trans hfine, hresult⟩
  · exact .inr ⟨e, h.failedLast hfail, hresult⟩

/-- The bytes of a range, or the news that the stream ends before it. -/
def wholeRange (ι : Type) (plain : List Byte) (full : Bool) (unpackedLen : Option Nat) (offset len : Nat) :
    Except (ReadError ι) (List Byte) :=
  if full = true ∧ (rangeOf plain offset len).length < StreamReader.clampLen unpackedLen offset len then
    .error (.fault (.error .truncatedInput))
  else .ok (rangeOf plain offset len)

namespace Serves

variable {s : ReadSession σ κ} {r : StreamReader σ κ} {file : File Byte}

/-- Draining takes all there is to serve. -/
theorem drain (hC : Obeys codec packed plain At) : ∀ (fuel : Nat) {s : ReadSession σ κ} {r : StreamReader σ κ},
    Serves codec packed plain At full s r file → s.toGo packed plain < fuel →
    ∃ s' r' out, r.drain fuel = some (out, r') ∧ Serves codec packed plain At full s' r' file ∧
      Continues s out s' ∧ s'.toGo packed plain + out.length = s.toGo packed plain ∧
      (0 < s.reader.serveable → 0 < out.length) := by
  intro fuel
  induction fuel with
  | zero => intro s r _ hfuel; exact absurd hfuel (Nat.not_lt_zero _)
  | succ fuel ih =>
    intro s r h hfuel
    obtain ⟨s₁, r₁, out, hread, hlen, hserves, hcontinues, _, _, hgo⟩ := h.readOutput hC bufSize
    have hbuf : 0 < bufSize := by decide
    rw [StreamReader.drain, hread]
    cases out with
    | nil =>
      refine ⟨s₁, r₁, [], rfl, hserves, hcontinues, hgo, fun hserve => ?_⟩
      rw [List.length_nil] at hlen
      omega
    | cons b out =>
      rw [List.length_cons] at hgo
      obtain ⟨s₂, r₂, rest, hrest, hserves₂, hcontinues₂, hgo₂, _⟩ := ih hserves (by omega)
      simp only [hrest, Option.map_some]
      refine ⟨s₂, r₂, b :: out ++ rest, rfl, hserves₂, hcontinues.trans hcontinues₂, ?_, fun _ => ?_⟩
      · rw [List.length_append, List.length_cons]
        omega
      · rw [List.length_append, List.length_cons]
        omega

/-- The loop that reads a range ends, and with the bytes of the range. -/
theorem readLoop (answers : Answers ι) (hC : Obeys codec packed plain At) {fuel : Nat}
    (hfuel : StreamReader.stepFuel packed plain ≤ fuel) :
    ∀ (rounds : Nat) {s : ReadSession σ κ} {r : StreamReader σ κ} {file : File Byte},
      Serves codec packed plain At full s r file → s.toGo packed plain < rounds → s.toGo packed plain < fuel →
      ∃ result file', r.readLoop answers fuel rounds file s.delivered = some (result, file') ∧
        Returns answers file.calls file'.calls
          (wholeRange ι plain full s.reader.unpackedLen s.offset s.len) result := by
  intro rounds
  induction rounds with
  | zero => intro s r file _ hgo; exact absurd hgo (Nat.not_lt_zero _)
  | succ rounds ih =>
    intro s r file h hgo hlow
    obtain ⟨request, r', hstep, hturn⟩ := h.turn answers hC hfuel
    have hthen : ∀ {s₁ : ReadSession σ κ} {r₁ : StreamReader σ κ} {file₁ : File Byte} {out : List Byte},
        Serves codec packed plain At full s₁ r₁ file₁ → Continues s out s₁ → Answered answers file.calls file₁.calls →
        s₁.toGo packed plain < s.toGo packed plain →
        ∃ result file', StreamReader.readLoop answers fuel rounds r₁ file₁ (s.delivered ++ out) = some (result, file') ∧
          Returns answers file.calls file'.calls (wholeRange ι plain full s.reader.unpackedLen s.offset s.len)
            result := by
      intro s₁ r₁ file₁ out hserves hcontinues hfine hcloser
      obtain ⟨result, file', hloop, hreturns⟩ := ih hserves (by omega) (by omega)
      rw [hcontinues.offset, hcontinues.len, hcontinues.unpackedLen] at hreturns
      rw [hcontinues.delivered] at hloop
      exact ⟨result, file', hloop, hreturns.after hfine⟩
    rw [StreamReader.readLoop, hstep]
    cases hturn with
    | needInput supplied =>
      simp only
      cases hfill : r'.fill answers file with
      | mk p file₁ =>
        rw [hfill] at supplied
        cases supplied with
        | failed last _ => exact ⟨_, _, rfl, .inr ⟨_, last, rfl⟩⟩
        | fed fine serves continues _ closer =>
          have h := hthen serves continues fine closer
          rwa [List.append_nil] at h
    | seekAndRead _ supplied =>
      simp only
      cases hfill : r'.fillFrom answers file _ _ with
      | mk p file₁ =>
        rw [hfill] at supplied
        cases supplied with
        | failed last _ => exact ⟨_, _, rfl, .inr ⟨_, last, rfl⟩⟩
        | fed fine serves continues _ closer =>
          have h := hthen serves continues fine closer
          rwa [List.append_nil] at h
    | outputReady serves continues started some closer =>
      obtain ⟨s₂, r₂, out, hdrain, hserves, hcontinues, hgo', hsome⟩ := serves.drain hC fuel (by omega)
      have hout := hsome some
      simp only [hdrain]
      exact hthen hserves (continues.trans hcontinues) (.refl _) (by omega)
    | done all whole =>
      refine ⟨_, _, rfl, .inl ⟨.refl _, ?_⟩⟩
      rw [all]
      exact (if_neg whole).symm
    | short all short =>
      exact ⟨_, _, rfl, .inl ⟨.refl _, (if_pos short).symm⟩⟩

/-- An engine that was just created, over an index that can be read. -/
theorem start (hC : Obeys codec packed plain At) {index : StreamIndex σ κ} (hread : Readable codec plain At index)
    (hbytes : file.bytes = packed) (offset len : Nat) :
    ∃ r, StreamReader.new index offset len = .ok r ∧ r.unpackedLen = index.unpackedLen ∧
      r.requireFull = index.unpackedLen.isSome ∧
      ∀ full, Serves codec packed plain At full (ReadSession.start r offset len) (r.withFull full) file := by
  obtain ⟨r, hnew, hinv⟩ := ReadInv.start hC hread.table.sameCodec hread.table.sorted hread.table.exact
    hread.unpackedLen offset len
  have hmade := hnew
  simp only [StreamReader.new, hread.table.sameCodec] at hmade
  obtain ⟨d, hcreate⟩ := hC.creates
  obtain ⟨i, cp, hbest, _⟩ := StreamIndex.bestCheckpointForOffset_isBest hread.table.sorted offset
  simp only [hcreate, hbest] at hmade
  obtain rfl := Except.ok.inj hmade
  exact ⟨_, hnew, rfl, rfl, fun full => ⟨hinv, rfl, hbytes, fun h => absurd h Bool.false_ne_true⟩⟩

end Serves

namespace ReadEngine

/-- What reading a range of a file comes to. -/
def answer (ι : Type) (index : ArchiveIndex σ κ) (plain : List Byte) (path : String) (offset len : Nat) :
    Except (ReadError ι) (List Byte) :=
  match index.get path with
  | none => .error (.fileNotFound path)
  | some entry =>
    let start := entry.uncompressedOffset + min offset entry.size
    if pastEnd index entry = true then .error (.fault (.error .truncatedInput))
    else if u64Max < start then .error (.fault .panic)
    else wholeRange ι plain true index.stream.unpackedLen start (min len (entry.size - min offset entry.size))

/-- The engine for a range of an entry, or why there is none. -/
theorem forEntryRange_eq (index : ArchiveIndex σ κ) (entry : IndexEntry) (offset len : Nat) :
    forEntryRange index entry offset len =
      if pastEnd index entry = true then .error (.error .truncatedInput)
      else if u64Max < entry.uncompressedOffset + min offset entry.size then .error .panic
      else (StreamReader.new index.stream (entry.uncompressedOffset + min offset entry.size)
        (min len (entry.size - min offset entry.size))).map StreamReader.requireFullRange := by
  unfold forEntryRange
  refine if_congr Iff.rfl rfl ?_
  by_cases hover : u64Max < entry.uncompressedOffset + min offset entry.size
  · have hadd : addU64 entry.uncompressedOffset (min offset entry.size) = .error .panic := if_neg (by omega)
    simp only [hadd, if_pos hover]
    rfl
  · have hadd : addU64 entry.uncompressedOffset (min offset entry.size) =
      .ok (entry.uncompressedOffset + min offset entry.size) := if_pos (by omega)
    simp only [hadd, if_neg hover]
    show (StreamReader.new _ _ _ >>= fun reader => pure reader.requireFullRange) = _
    cases StreamReader.new index.stream (entry.uncompressedOffset + min offset entry.size)
      (min len (entry.size - min offset entry.size)) <;> rfl

/-- An engine is refused for the reason the answer gives, or it sets out to read the answer. -/
theorem newRange_cases (hC : Obeys codec packed plain At) {index : ArchiveIndex σ κ}
    (hread : Readable codec plain At index.stream) {file : File Byte} (hbytes : file.bytes = packed)
    (path : String) (offset len : Nat) :
    (∃ e, newRange index path offset len = .error e ∧ answer ι index plain path offset len = .error e) ∨
    ∃ engine s, @newRange _ _ ι index path offset len = .ok engine ∧
      Serves codec packed plain At true s engine file ∧ s.delivered = [] ∧ s.len ≤ len ∧
      answer ι index plain path offset len = wholeRange ι plain true s.reader.unpackedLen s.offset s.len := by
  unfold newRange answer
  cases index.get path with
  | none => exact .inl ⟨_, rfl, rfl⟩
  | some entry =>
    simp only [forEntryRange_eq]
    by_cases hpast : pastEnd index entry = true
    · simp only [if_pos hpast]
      exact .inl ⟨_, rfl, rfl⟩
    · by_cases hover : u64Max < entry.uncompressedOffset + min offset entry.size
      · simp only [if_neg hpast, if_pos hover]
        exact .inl ⟨_, rfl, rfl⟩
      · obtain ⟨r, hnew, hunpacked, _, hserves⟩ := Serves.start hC hread hbytes
          (entry.uncompressedOffset + min offset entry.size) (min len (entry.size - min offset entry.size))
        simp only [if_neg hpast, if_neg hover, hnew]
        exact .inr ⟨_, _, rfl, hserves true, rfl, Nat.min_le_left _ _, by rw [← hunpacked]; rfl⟩

end ReadEngine

namespace Archive

/-- Five stored bytes, three of them a file. -/
def stored : Archive NoneDecompressor Empty :=
  { reader := { bytes := [1, 2, 3, 4, 5], pos := 0, calls := 0 }
    index :=
      { metadata :=
          { version := 6, compression := .none, archiveFormat := .tar, archiveSize := 5, uncompressedSize := 5,
            complete := true }
        stream := StreamIndex.new NoneDecompressor.codec (some 5)
        entries :=
          [{ path := "a", size := 3, entryType := .regular, mode := 0, uid := 0, gid := 0, mtime := 0,
             linkTarget := none, uncompressedOffset := 1, checkpointIndex := 0 }] } }

/-- A handle whose third call fails. -/
def flaky : Answers Unit := fun k => if k = 2 then .error () else .ok 0

theorem stored_handedOut : HandedOut NoneDecompressor.codec [1, 2, 3, 4, 5] stored.index.stream :=
  .first .fixedInterval 2 (some 5)
    (StreamIndexer.withParts .new (StreamIndex.new NoneDecompressor.codec (some 5)) 2 .needInput 0 0) []
    (IndexSession.fresh _) rfl rfl

/-- Reading a range of a file gives the bytes of the file in that range, or says that there is
no such file or that the stream ends before the range does; and where a call on the file
fails, it is the last one and its failure is the result. -/
theorem readFileRange_answers (hC : Obeys codec packed plain At) (archive : Archive σ κ)
    (hhanded : HandedOut codec packed archive.index.stream) (hbytes : archive.reader.bytes = packed)
    (path : String) (offset len : Nat) {fuel : Nat} (hfuel : StreamReader.stepFuel packed plain + len + 1 ≤ fuel) :
    ∃ result file, archive.readFileRange answers fuel path offset len = some (result, file) ∧
      Returns answers archive.reader.calls file.calls (ReadEngine.answer ι archive.index plain path offset len)
        result := by
  rw [readFileRange]
  rcases @File.seek_cases Byte ι answers archive.reader 0 with ⟨e, hseek, hfail⟩ | ⟨hseek, hfine⟩
  · rw [hseek]
    exact ⟨_, _, rfl, .inr ⟨e, hfail, rfl⟩⟩
  · rw [hseek]
    have hsame : ({ archive.reader with pos := 0, calls := archive.reader.calls + 1 } : File Byte).bytes = packed :=
      hbytes
    rcases @ReadEngine.newRange_cases _ _ ι _ _ _ _ hC _ (hhanded.readable hC) _ hsame path offset len with
      ⟨e, hnew, hanswer⟩ | ⟨engine, s, hnew, hserves, hnone, hlen, hanswer⟩
    · simp only [hnew]
      exact ⟨_, _, rfl, .inl ⟨hfine, hanswer.symm⟩⟩
    · simp only [hnew]
      have hgo := hserves.inv.toGo_lt
      obtain ⟨result, file, hloop, hreturns⟩ :=
        hserves.readLoop answers hC (by omega : StreamReader.stepFuel packed plain ≤ fuel) fuel (by omega) (by omega)
      rw [hnone] at hloop
      rw [hanswer]
      exact ⟨result, file, hloop, hreturns.after hfine⟩

/-- A byte of it. -/
theorem readFileRange_answers_stored : ∃ result file,
    stored.readFileRange flaky 20 "a" 1 1 = some (result, file) ∧ Returns flaky 0 file.calls (.ok [3]) result :=
  readFileRange_answers (NoneDecompressor.obeys [1, 2, 3, 4, 5]) stored stored_handedOut rfl "a" 1 1 (by decide)

end Archive
end Iluvatar
