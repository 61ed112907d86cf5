/-
From the bytes of an archive to the contents of its files.

An archive that was opened lists what the parser records of the plain text, and so reading a
file by its path gives the plain bytes that the parser said are its data.
-/
import Iluvatar.Engine.ArMembers
import Iluvatar.Engine.LookupRuns
import Iluvatar.Sync.Builds

namespace Iluvatar

open Sansio

variable {σ κ τ ι : Type} {codec : Codec σ κ} {packed plain : List Byte} {At : σ → Nat → Nat → Prop}
variable {answers : Answers ι}

/-- The bytes that an entry says are its data. -/
def dataOf (plain : List Byte) (entry : IndexEntry) : List Byte :=
  (plain.drop entry.uncompressedOffset).take entry.size

theorem IndexEntry.unplaced_path (entry : IndexEntry) : entry.unplaced.path = entry.path := rfl

namespace ReadEngine

/-- A file whose data the stream holds is read whole. -/
theorem answer_within {index : ArchiveIndex σ κ} (hread : Readable codec plain At index.stream) {path : String}
    {entry : IndexEntry} (hget : index.get path = some entry)
    (hwithin : entry.uncompressedOffset + entry.size ≤ plain.length) (hlong : plain.length ≤ u64Max) :
    answer ι index plain path 0 u64Max = .ok (dataOf plain entry) := by
  have hpast : pastEnd index entry = false := by
    unfold pastEnd
    cases htotal : index.stream.unpackedLen with
    | none => rfl
    | some total =>
      have htold := hread.unpackedLen total htotal
      refine decide_eq_false fun hless => ?_
      have hless : total < min (entry.uncompressedOffset + entry.size) u64Max := hless
      omega
  have hall : min u64Max (entry.size - min 0 entry.size) = entry.size := by omega
  have hlength : (dataOf plain entry).length = entry.size := by
    unfold dataOf
    rw [List.length_take, List.length_drop]
    omega
  have hrange : rangeOf plain entry.uncompressedOffset entry.size = dataOf plain entry := by
    unfold rangeOf dataOf
    rw [seg_eq_take_drop, Nat.min_eq_left hwithin, Nat.min_eq_left (Nat.le_trans (Nat.le_add_right _ _) hwithin),
      Nat.add_sub_cancel_left]
  have hnotShort : ¬ (true = true ∧ (rangeOf plain entry.uncompressedOffset entry.size).length <
      StreamReader.clampLen index.stream.unpackedLen entry.uncompressedOffset entry.size) := by
    rintro ⟨_, hless⟩
    rw [hrange, hlength] at hless
    unfold StreamReader.clampLen at hless
    cases htotal : index.stream.unpackedLen with
    | none =>
      rw [htotal] at hless
      exact Nat.lt_irrefl _ hless
    | some total =>
      rw [htotal] at hless
      exact absurd hless (Nat.not_lt.mpr (Nat.min_le_left _ _))
  unfold answer
  simp only [hget, hpast, Bool.false_eq_true, if_false, Nat.zero_min, Nat.add_zero]
  rw [if_neg (by omega), Nat.sub_zero, Nat.min_eq_right (by omega)]
  unfold wholeRange
  rw [if_neg hnotShort, hrange]

end ReadEngine

/-- Fuel enough to read any file. -/
def readFuel (packed plain : List Byte) : Nat := StreamReader.stepFuel packed plain + u64Max + 1

namespace Archive

/-- Reading a file gives its bytes, or says why not. -/
theorem readFile_answers (hC : Obeys codec packed plain At) (archive : Archive σ κ)
    (hhanded : HandedOut codec packed archive.index.stream) (hbytes : archive.reader.bytes = packed)
    (path : String) {fuel : Nat} (hfuel : readFuel packed plain ≤ fuel) :
    ∃ result file, archive.readFile answers fuel path = some (result, file) ∧
      Returns answers archive.reader.calls file.calls (ReadEngine.answer ι archive.index plain path 0 u64Max)
        result := by
  have hfuel : StreamReader.stepFuel packed plain + u64Max + 1 ≤ fuel := hfuel
  rw [readFile]
  rcases @File.seek_cases Byte ι answers archive.reader 0 with ⟨e, hseek, hfail⟩ | ⟨hseek, hfine⟩
  · rw [hseek]
    exact ⟨_, _, rfl, .inr ⟨e, hfail, rfl⟩⟩
  · rw [hseek]
    have hsame : ({ archive.reader with pos := 0, calls := archive.reader.calls + 1 } : File Byte).bytes = packed :=
      hbytes
    rcases @ReadEngine.newRange_cases _ _ ι _ _ _ _ hC _ (hhanded.readable hC) _ hsame path 0 u64Max with
      ⟨e, hnew, hanswer⟩ | ⟨engine, s, hnew, hserves, hnone, hlen, hanswer⟩
    · simp only [ReadEngine.new, hnew]
      exact ⟨_, _, rfl, .inl ⟨hfine, hanswer.symm⟩⟩
    · simp only [ReadEngine.new, hnew]
      have hgo := hserves.inv.toGo_lt
      obtain ⟨result, file, hloop, hreturns⟩ :=
        hserves.readLoop answers hC (by omega : StreamReader.stepFuel packed plain ≤ fuel) fuel (by omega) (by omega)
      rw [hnone] at hloop
      rw [hanswer]
      exact ⟨result, file, hloop, hreturns.after hfine⟩

/-- What reading a path comes to that stands for these bytes. -/
def found (ι : Type) (path : String) : Option (List Byte) → Except (ReadError ι) (List Byte)
  | none => .error (.fileNotFound path)
  | some data => .ok data

/-- What reading a file by its path comes to, by the entries that were recorded. -/
def contents (ι : Type) (recorded : List IndexEntry) (plain : List Byte) (path : String) :
    Except (ReadError ι) (List Byte) :=
  found ι path ((ArchiveIndex.lookup recorded path).map (dataOf plain))

/-- An archive is read as the entries say. -/
theorem Opened.reads {archive : Archive σ κ} {complete : Bool} (hC : Obeys codec packed plain At)
    (h : Opened codec packed complete archive) {recorded : List IndexEntry}
    (hlists : archive.index.entries.map IndexEntry.unplaced = recorded.map IndexEntry.unplaced)
    (hlong : plain.length ≤ u64Max) (hwithin : ∀ e ∈ recorded, e.uncompressedOffset + e.size ≤ plain.length)
    (path : String) {fuel : Nat} (hfuel : readFuel packed plain ≤ fuel) :
    ∃ result file, archive.readFile answers fuel path = some (result, file) ∧
      Returns answers archive.reader.calls file.calls (contents ι recorded plain path) result := by
  have hsame : (archive.index.get path).map IndexEntry.unplaced =
      (ArchiveIndex.lookup recorded path).map IndexEntry.unplaced := by
    rw [ArchiveIndex.get_eq, ← ArchiveIndex.lookup_map IndexEntry.unplaced_path, hlists,
      ArchiveIndex.lookup_map IndexEntry.unplaced_path]
  have hanswer : ReadEngine.answer ι archive.index plain path 0 u64Max = contents ι recorded plain path := by
    unfold contents found
    cases hfound : ArchiveIndex.lookup recorded path with
    | none =>
      rw [hfound] at hsame
      have hnone : archive.index.get path = none := Option.map_eq_none_iff.mp hsame
      unfold ReadEngine.answer
      rw [hnone]
      rfl
    | some entry =>
      rw [hfound] at hsame
      obtain ⟨found, hget, hunplaced⟩ := Option.map_eq_some_iff.mp hsame
      have hoffset : found.uncompressedOffset = entry.uncompressedOffset := by
        show found.unplaced.uncompressedOffset = entry.unplaced.uncompressedOffset
        rw [hunplaced]
      have hsize : found.size = entry.size := by
        show found.unplaced.size = entry.unplaced.size
        rw [hunplaced]
      have hthere := hwithin entry (ArchiveIndex.lookup_mem hfound)
      rw [ReadEngine.answer_within (h.handed.readable hC) hget (by rw [hoffset, hsize]; exact hthere) hlong]
      unfold dataOf
      rw [hoffset, hsize]
      rfl
  rw [← hanswer]
  exact readFile_answers hC archive h.handed h.bytes path hfuel

/-- Opening an archive and reading a file by its path gives what the parser says are its data: where
no call on the file fails, the archive opens, and then each path reads as the plain text and the
entries that one reading of it records say. -/
theorem build_reads_back {codecOf : CompressionFormat → Codec σ κ} (impl : CheckpointStrategy τ)
    (strategyOf : CompressionFormat → τ) (file : File Byte) {format : CompressionFormat}
    (hdetect : detectFormat (file.bytes.take headerRoom) = some format)
    (hC : Obeys (codecOf format) file.bytes plain At)
    (hnever : ¬ MeetsIdle archiveParsers plain (readerOf none plain) 0) {recorded : List IndexEntry}
    (hreading : Reading archiveParsers plain (readerOf none plain) 0 [] .done recorded)
    (hlong : plain.length ≤ u64Max) (hwithin : ∀ e ∈ recorded, e.uncompressedOffset + e.size ≤ plain.length) :
    ∃ result file', Ends (fun fuel => build answers codecOf impl strategyOf (fun _ => true) fuel file) (result, file') ∧
      ((∃ e, FailedLast answers file.calls file'.calls e ∧ result = .error (.io e)) ∨
        Answered answers file.calls file'.calls ∧ ∃ archive, result = .ok archive ∧
          ∀ (path : String) (fuel : Nat), readFuel file.bytes plain ≤ fuel →
            ∃ read file'', archive.readFile answers fuel path = some (read, file'') ∧
              Returns answers archive.reader.calls file''.calls (contents ι recorded plain path) read) := by
  have hobeys : ∀ format', detectFormat (file.bytes.take headerRoom) = some format' →
      Obeys (codecOf format') file.bytes plain At := by
    intro format' hdetect'
    obtain rfl := Option.some.inj (hdetect.symm.trans hdetect')
    exact hC
  obtain ⟨result, file', hends, hresult⟩ :=
    @build_ends _ _ _ _ plain At answers codecOf impl strategyOf (fun _ => true) file hobeys
  refine ⟨result, file', hends, ?_⟩
  rcases hresult with hfailed | ⟨hfine, harrived⟩
  · exact .inl hfailed
  refine .inr ⟨hfine, ?_⟩
  cases harrived.built hobeys with
  | unsupported undetected =>
    rw [hdetect] at undetected
    cases undetected
  | refused detected reads =>
    obtain ⟨recorded', hfails⟩ := reads hnever
    obtain ⟨hsame, _⟩ := hreading.unique hfails
    cases hsame
  | stopped detected opened said => cases said
  | @whole format' archive detected opened reads =>
    obtain ⟨recorded', hreads, hlists⟩ := reads hnever
    obtain ⟨_, rfl⟩ := hreading.unique hreads
    exact ⟨archive, rfl, fun path fuel hfuel =>
      Opened.reads (hobeys format' detected) opened hlists hlong hwithin path hfuel⟩

/-! ## Archives of ar files -/

/-- The data of the file a path stands for: the last with the path itself, else the last with its
other form. -/
def written (files : List Ar.File) (path : String) : Option (List Byte) :=
  ((files.filter fun f => f.path = path).getLast?.or
    (files.filter fun f => f.path = ArchiveIndex.otherPath path).getLast?).map Ar.File.data

/-- Of a list only the paths and the data count. -/
theorem last_data {α : Type} (pathOf : α → String) (data : α → List Byte) (l : List α) (path : String) :
    ((l.filter fun a => pathOf a = path).getLast?).map data =
      (((l.map fun a => (pathOf a, data a)).filter fun x => x.1 = path).getLast?).map Prod.snd := by
  rw [List.filter_map, List.getLast?_map, Option.map_map]
  rfl

theorem lookup_files {files : List Ar.File} {entries : List ArchiveEntry}
    (h : List.Forall₂ (ArParser.Describes plain) files entries) (path : String) :
    (ArchiveIndex.lookup (entries.map recordOf) path).map (dataOf plain) = written files path := by
  have hsame : (entries.map recordOf).map (fun e => (e.path, dataOf plain e)) =
      files.map fun f => (f.path, f.data) := by
    induction h with
    | nil => rfl
    | @cons f e _ _ hdescribes _ ih =>
      rw [List.map_cons, List.map_cons, List.map_cons, ih]
      have hfirst : ((recordOf e).path, dataOf plain (recordOf e)) = (f.path, f.data) :=
        Prod.ext hdescribes.path hdescribes.data
      rw [hfirst]
  have hlast : ∀ path', (ArchiveIndex.lastAt (entries.map recordOf) path').map (dataOf plain) =
      ((files.filter fun f => f.path = path').getLast?).map Ar.File.data := by
    intro path'
    unfold ArchiveIndex.lastAt
    rw [last_data IndexEntry.path (dataOf plain), last_data Ar.File.path Ar.File.data, hsame]
  unfold ArchiveIndex.lookup written
  rw [Option.map_or, Option.map_or, hlast, hlast]

/-- What was written into an ar archive comes back out of it, whatever codec packed it. -/
theorem ar_reads_back (d : Ar.Dialect) (symbols : List Ar.Record) (files : List Ar.File)
    (hsymbols : ∀ r ∈ symbols, r.IsSymbols) (hlimits : Ar.WithinLimits d files) (hnames : Ar.NoneAmbiguous d files)
    {codecOf : CompressionFormat → Codec σ κ} (impl : CheckpointStrategy τ) (strategyOf : CompressionFormat → τ)
    (file : File Byte) {format : CompressionFormat}
    (hdetect : detectFormat (file.bytes.take headerRoom) = some format)
    (hC : Obeys (codecOf format) file.bytes (Ar.archive (symbols ++ Ar.fileRecords d files)) At)
    (hlong : (Ar.archive (symbols ++ Ar.fileRecords d files)).length ≤ u64Max) :
    ∃ result file', Ends (fun fuel => build answers codecOf impl strategyOf (fun _ => true) fuel file) (result, file') ∧
      ((∃ e, FailedLast answers file.calls file'.calls e ∧ result = .error (.io e)) ∨
        Answered answers file.calls file'.calls ∧ ∃ archive, result = .ok archive ∧
          ∀ (path : String) (fuel : Nat), readFuel file.bytes (Ar.archive (symbols ++ Ar.fileRecords d files)) ≤ fuel →
            ∃ read file'', archive.readFile answers fuel path = some (read, file'') ∧
              Returns answers archive.reader.calls file''.calls (found ι path (written files path)) read) := by
  obtain ⟨entries, hdescribes, hwithin, hreading, hnever⟩ :=
    ArParser.written_reading d symbols files hsymbols hlimits hnames
  have hinside : ∀ e ∈ entries.map recordOf, e.uncompressedOffset + e.size ≤
      (Ar.archive (symbols ++ Ar.fileRecords d files)).length := by
    intro e he
    obtain ⟨entry, hmem, rfl⟩ := List.mem_map.mp he
    exact hwithin entry hmem
  obtain ⟨result, file', hends, hresult⟩ := @build_reads_back _ _ _ _ _ _ answers _ impl strategyOf file _ hdetect hC
    hnever _ hreading hlong hinside
  refine ⟨result, file', hends, ?_⟩
  rcases hresult with hfailed | ⟨hfine, archive, hok, hreads⟩
  · exact .inl hfailed
  refine .inr ⟨hfine, archive, hok, fun path fuel hfuel => ?_⟩
  obtain ⟨read, file'', hread, hreturns⟩ := hreads path fuel hfuel
  rw [contents, lookup_files hdescribes] at hreturns
  exact ⟨read, file'', hread, hreturns⟩

/-- An ar archive that is not packed shows no other format. -/
theorem detectFormat_ar (rs : List Ar.Record) : detectFormat ((Ar.archive rs).take headerRoom) = some .none := by
  obtain ⟨rest, hrest⟩ : ∃ rest, (Ar.archive rs).take headerRoom = arMagic ++ rest :=
    ⟨_, by unfold Ar.archive; rw [List.take_append]; rfl⟩
  have htake : ∀ k ≤ 8, (arMagic ++ rest).take k = arMagic.take k := fun k hk => List.take_append_of_le_length hk
  have hlength : 8 ≤ (arMagic ++ rest).length := by
    rw [List.length_append]
    exact Nat.le_add_right 8 _
  rw [hrest]
  unfold detectFormat
  rw [htake 2 (by omega), htake 3 (by omega), htake 6 (by omega), htake 4 (by omega), if_neg (by omega),
    if_neg (by decide), if_neg (by decide), if_neg (by decide), if_neg (by decide),
    if_pos (show detectMinBytes ≤ _ from Nat.le_trans (by decide) hlength)]
  exact ite_self _

/-- An ar archive of a file with a name that a GNU header has no room for. -/
def longArchive : List Byte :=
  Ar.archive ([] ++ Ar.fileRecords (.gnu ArParser.blankStamp) [ArParser.longFile])

set_option maxRecDepth 20000 in
theorem longArchive_length : longArchive.length ≤ u64Max := by decide

theorem ar_reads_back_long : ∃ result file',
    Ends (fun fuel => build flaky (fun _ => NoneDecompressor.codec) .fixedInterval defaultIntervalForFormat
      (fun _ => true) fuel { bytes := longArchive, pos := 0, calls := 3 }) (result, file') ∧
    ((∃ e, FailedLast flaky 3 file'.calls e ∧ result = .error (.io e)) ∨
      Answered flaky 3 file'.calls ∧ ∃ archive, result = .ok archive ∧
        ∀ (path : String) (fuel : Nat), readFuel longArchive longArchive ≤ fuel →
          ∃ read file'', archive.readFile flaky fuel path = some (read, file'') ∧
            Returns flaky archive.reader.calls file''.calls (found Unit path (written [ArParser.longFile] path))
              read) :=
  ar_reads_back (.gnu ArParser.blankStamp) [] [ArParser.longFile] (fun r hr => by cases hr)
    ⟨fun f hf => by obtain rfl := List.mem_singleton.mp hf; decide, by decide⟩
    (fun f hf => by obtain rfl := List.mem_singleton.mp hf; decide) .fixedInterval defaultIntervalForFormat
    { bytes := longArchive, pos := 0, calls := 3 } (detectFormat_ar _) (NoneDecompressor.obeys _)
    longArchive_length

end Archive
end Iluvatar
