/-
Loading an index from bytes, and reading a range of one of its entries.

What bincode makes of the payload is the parameter `deserialize`.
-/
import Iluvatar.Compress.None
import Iluvatar.Engine.IndexingEngine
import Iluvatar.Library.Fallible
import Iluvatar.Stream.Reader
import Iluvatar.Stream.Thinning

namespace Iluvatar

variable {σ κ : Type}

/-- Structural checks for an index that came from untrusted bytes. -/
def StreamIndex.validate (index : StreamIndex σ κ) : Except Error Unit :=
  match index.checkpoints with
  | [] => .error (.indexError "stream index contains no checkpoints")
  | first :: cps =>
    if first.uncompressedOffset ≠ 0 then
      .error (.indexError "stream index does not start at offset 0")
    else if ((first :: cps).zip cps).any fun w =>
        decide (w.2.uncompressedOffset < w.1.uncompressedOffset) then
      .error (.indexError "stream index checkpoints are not sorted")
    else .ok ()

namespace ArchiveIndex

/-- Magic bytes for the iluvatar index file format. -/
def indexMagic : List Byte := [0x53, 0x54, 0x52, 0x49, 0x44, 0x58, 0x00, 0x01]

/-- The entries' checkpoints are in the table. -/
def checkEntries (index : ArchiveIndex σ κ) : Except Error Unit :=
  match index.entries.find? fun entry =>
      decide (index.stream.checkpoints.length ≤ entry.checkpointIndex) with
  | some entry =>
    .error (.indexError ("entry '" ++ entry.path ++ "' references checkpoint " ++
      toString entry.checkpointIndex ++ " of " ++ toString index.stream.checkpoints.length))
  | none => .ok ()

def fromBytes (deserialize : List Byte → Except String (ArchiveIndex σ κ)) (data : List Byte) :
    Except Error (ArchiveIndex σ κ) :=
  if data.length < indexMagic.length then .error (.indexError "data too short")
  else if data.take indexMagic.length ≠ indexMagic then .error (.indexError "invalid index magic")
  else
    match deserialize (data.drop indexMagic.length) with
    | .error msg => .error (.serialization msg)
    | .ok index =>
      if index.metadata.version ≠ IndexBuilder.indexVersion then
        .error (.indexVersionMismatch IndexBuilder.indexVersion index.metadata.version)
      else do
        index.stream.validate
        index.checkEntries
        return index

end ArchiveIndex

/-- `a + b` of two u64, which panics where it overflows. -/
def addU64 (a b : Nat) : Except Fault Nat := if a + b ≤ u64Max then .ok (a + b) else .error .panic

/-- `saturating_add` of two u64. -/
def satAddU64 (a b : Nat) : Nat := min (a + b) u64Max

namespace ReadEngine

/-- Whether the entry reaches past the end of the stream, where that is known. -/
def pastEnd (index : ArchiveIndex σ κ) (entry : IndexEntry) : Bool :=
  match index.stream.unpackedLen with
  | some total => decide (total < satAddU64 entry.uncompressedOffset entry.size)
  | none => false

/-- The stream reader for a byte range within one entry of `index`. -/
def forEntryRange (index : ArchiveIndex σ κ) (entry : IndexEntry) (fileOffset len : Nat) :
    Except Fault (StreamReader σ κ) :=
  if pastEnd index entry then .error (.error .truncatedInput)
  else do
    let fileOffset := min fileOffset entry.size
    let readLen := min len (entry.size - fileOffset)
    let start ← addU64 entry.uncompressedOffset fileOffset
    let reader ← StreamReader.new index.stream start readLen
    return reader.requireFullRange

/-- The request fails, or it sets up the range asked for, cut to the entry's data. -/
def Contained (index : ArchiveIndex σ κ) (entry : IndexEntry) (fileOffset len : Nat) : Prop :=
  (∃ e, forEntryRange index entry fileOffset len = .error (.error e)) ∨
  ∃ reader, forEntryRange index entry fileOffset len = .ok reader ∧
    reader.targetOffset = entry.uncompressedOffset + min fileOffset entry.size ∧
    reader.targetLen ≤ len ∧
    reader.targetOffset + reader.targetLen ≤ entry.uncompressedOffset + entry.size

/-- The start of the range is a u64, or the entry is seen to reach past the stream's end. -/
def Fits (index : ArchiveIndex σ κ) (entry : IndexEntry) (fileOffset : Nat) : Prop :=
  entry.uncompressedOffset + min fileOffset entry.size ≤ u64Max ∨
    ∃ total, index.stream.unpackedLen = some total ∧
      total < min (entry.uncompressedOffset + entry.size) u64Max

end ReadEngine

/-- A table that passes validation is not empty, starts at offset 0 and is sorted. -/
theorem StreamIndex.validate_sorted {index : StreamIndex σ κ} (h : index.validate = .ok ()) :
    index.Sorted := by
  unfold StreamIndex.validate at h
  cases hcps : index.checkpoints with
  | nil =>
    rw [hcps] at h
    cases h
  | cons first cps =>
    rw [hcps] at h
    simp only at h
    by_cases hzero : first.uncompressedOffset ≠ 0
    · rw [if_pos hzero] at h
      cases h
    · rw [if_neg hzero] at h
      by_cases hunsorted : (((first :: cps).zip cps).any fun w =>
          decide (w.2.uncompressedOffset < w.1.uncompressedOffset)) = true
      · rw [if_pos hunsorted] at h
        cases h
      · refine ⟨⟨first, cps, hcps, by omega⟩, ?_⟩
        rw [hcps]
        have hchain : (first :: cps).IsChain
            fun a b => a.uncompressedOffset ≤ b.uncompressedOffset := by
          clear hcps h hzero
          induction cps generalizing first with
          | nil => exact List.IsChain.singleton first
          | cons next cps ih =>
            rw [List.zip_cons_cons, List.any_cons, Bool.or_eq_true, not_or] at hunsorted
            refine (ih next hunsorted.2).cons_cons ?_
            have hle := hunsorted.1
            rw [decide_eq_true_iff] at hle
            exact Nat.le_of_not_lt hle
        exact List.isChain_iff_pairwise.mp hchain

theorem ArchiveIndex.fromBytes_sorted {deserialize : List Byte → Except String (ArchiveIndex σ κ)}
    {data : List Byte} {index : ArchiveIndex σ κ} (h : fromBytes deserialize data = .ok index) :
    index.stream.Sorted := by
  unfold fromBytes at h
  split at h
  · cases h
  · split at h
    · cases h
    · split at h
      · cases h
      · split at h
        · cases h
        · obtain ⟨_, hvalid, h⟩ := Except.bind_eq_ok.mp h
          obtain ⟨_, _, h⟩ := Except.bind_eq_ok.mp h
          obtain rfl := Except.ok.inj h
          exact StreamIndex.validate_sorted hvalid

theorem StreamReader.new_cases {index : StreamIndex σ κ} (h : index.Sorted) (offset len : Nat) :
    (∃ e, StreamReader.new index offset len = .error (.error e)) ∨
    ∃ reader, StreamReader.new index offset len = .ok reader ∧ reader.targetOffset = offset ∧
      reader.targetLen ≤ len := by
  obtain ⟨i, cp, hbest, _⟩ := StreamIndex.bestCheckpointForOffset_isBest h offset
  unfold StreamReader.new
  cases hcreate : index.codec.create with
  | error e => exact .inl ⟨e, rfl⟩
  | ok d =>
    rw [hbest]
    refine .inr ⟨_, rfl, rfl, ?_⟩
    show clampLen index.unpackedLen offset len ≤ len
    unfold clampLen
    split
    · exact Nat.min_le_left _ _
    · exact Nat.le_refl _

/-- Of an index that loads, a read is confined to its entry exactly when the start of its range
is a u64 or the entry is seen to reach past the end of the stream. -/
theorem ReadEngine.contained_iff {deserialize : List Byte → Except String (ArchiveIndex σ κ)}
    {data : List Byte} {index : ArchiveIndex σ κ}
    (hload : ArchiveIndex.fromBytes deserialize data = .ok index) (entry : IndexEntry)
    (fileOffset len : Nat) :
    Contained index entry fileOffset len ↔ Fits index entry fileOffset := by
  have hsorted := ArchiveIndex.fromBytes_sorted hload
  by_cases hpast : pastEnd index entry = true
  · have hrun : forEntryRange index entry fileOffset len = .error (.error .truncatedInput) :=
      if_pos hpast
    have hfits : Fits index entry fileOffset := by
      right
      unfold pastEnd at hpast
      split at hpast
      · rename_i total htotal
        exact ⟨total, htotal, of_decide_eq_true hpast⟩
      · cases hpast
    exact ⟨fun _ => hfits, fun _ => .inl ⟨_, hrun⟩⟩
  · have hknown : ¬ ∃ total, index.stream.unpackedLen = some total ∧
        total < min (entry.uncompressedOffset + entry.size) u64Max := by
      rintro ⟨total, htotal, hlt⟩
      apply hpast
      unfold pastEnd
      rw [htotal]
      exact decide_eq_true hlt
    have hrun : forEntryRange index entry fileOffset len = (do
        let start ← addU64 entry.uncompressedOffset (min fileOffset entry.size)
        let reader ← StreamReader.new index.stream start
          (min len (entry.size - min fileOffset entry.size))
        return reader.requireFullRange) := if_neg hpast
    by_cases hsum : entry.uncompressedOffset + min fileOffset entry.size ≤ u64Max
    · refine ⟨fun _ => .inl hsum, fun _ => ?_⟩
      have hadd : addU64 entry.uncompressedOffset (min fileOffset entry.size) =
        .ok (entry.uncompressedOffset + min fileOffset entry.size) := if_pos hsum
      unfold Contained
      rw [hrun, hadd]
      rcases StreamReader.new_cases hsorted
          (entry.uncompressedOffset + min fileOffset entry.size)
          (min len (entry.size - min fileOffset entry.size)) with ⟨e, hnew⟩ | ⟨reader, hnew, hstart, hlen⟩
      · left
        refine ⟨e, ?_⟩
        show (StreamReader.new _ _ _ >>= _) = _
        rw [hnew]
        rfl
      · right
        refine ⟨reader.requireFullRange, ?_, hstart, ?_, ?_⟩
        · show (StreamReader.new _ _ _ >>= _) = _
          rw [hnew]
          rfl
        · show reader.targetLen ≤ len
          omega
        · show reader.targetOffset + reader.targetLen ≤ _
          omega
    · have hadd : addU64 entry.uncompressedOffset (min fileOffset entry.size) = .error .panic :=
        if_neg hsum
      rw [hadd] at hrun
      constructor
      · rintro (⟨e, he⟩ | ⟨reader, hreader, _⟩)
        · rw [hrun] at he
          cases he
        · rw [hrun] at hreader
          cases hreader
      · rintro (hfits | hfits)
        · exact absurd hfits hsum
        · exact absurd hfits hknown

namespace ReadEngine

/-- Two bytes of data at the last u64. -/
def farEntry : IndexEntry :=
  { path := "a", size := 2, entryType := .regular, mode := 0, uid := 0, gid := 0, mtime := 0,
    linkTarget := none, uncompressedOffset := u64Max, checkpointIndex := 0 }

/-- An unfinished index of stored bytes with that entry. -/
def farIndex : ArchiveIndex NoneDecompressor Empty :=
  { metadata :=
      { version := 6, compression := .none, archiveFormat := .tar, archiveSize := 0,
        uncompressedSize := 0, complete := false }
    stream := StreamIndex.new NoneDecompressor.codec none
    entries := [farEntry] }

/-- `farIndex` as bincode writes it: the metadata, the stream's table, the entries. -/
def farPayload : List Byte :=
  [6, 0, 0, 0] ++ List.replicate 25 0 ++
  [1] ++ List.replicate 13 0 ++ [1] ++ List.replicate 37 0 ++
  [1] ++ List.replicate 7 0 ++ [1] ++ List.replicate 7 0 ++ [0x61, 2] ++ List.replicate 40 0 ++
  List.replicate 8 0xFF ++ List.replicate 8 0

/-- bincode, as far as this payload goes. -/
def farDeserialize (payload : List Byte) :
    Except String (ArchiveIndex NoneDecompressor Empty) :=
  if payload = farPayload then .ok farIndex else .error "unexpected end of file"

theorem farIndex_loads :
    ArchiveIndex.fromBytes farDeserialize (ArchiveIndex.indexMagic ++ farPayload) = .ok farIndex := by
  have hdrop : (ArchiveIndex.indexMagic ++ farPayload).drop ArchiveIndex.indexMagic.length =
      farPayload := List.drop_left
  have htake : (ArchiveIndex.indexMagic ++ farPayload).take ArchiveIndex.indexMagic.length =
      ArchiveIndex.indexMagic := List.take_left
  have hdeserialize : farDeserialize farPayload = .ok farIndex := if_pos rfl
  have hshort : ¬ (ArchiveIndex.indexMagic ++ farPayload).length < ArchiveIndex.indexMagic.length := by
    rw [List.length_append]
    omega
  unfold ArchiveIndex.fromBytes
  rw [if_neg hshort, htake, if_neg (fun h => h rfl), hdrop, hdeserialize]
  rfl

theorem contained_iff_far : Contained farIndex farEntry 0 1 := by
  refine (contained_iff farIndex_loads farEntry 0 1).mpr (.inl ?_)
  show u64Max + min 0 2 ≤ u64Max
  omega

/-- One byte into that entry, the start of the range overflows. -/
theorem far_entry_overflows :
    ArchiveIndex.fromBytes farDeserialize (ArchiveIndex.indexMagic ++ farPayload) = .ok farIndex ∧
      farEntry ∈ farIndex.entries ∧ forEntryRange farIndex farEntry 1 1 = .error .panic ∧
      ¬ Contained farIndex farEntry 1 1 := by
  have hpanic : forEntryRange farIndex farEntry 1 1 = .error .panic := rfl
  refine ⟨farIndex_loads, List.mem_singleton_self _, hpanic, ?_⟩
  rintro (⟨e, he⟩ | ⟨reader, hreader, _⟩)
  · rw [hpanic] at he
    cases he
  · rw [hpanic] at hreader
    cases hreader

end ReadEngine
end Iluvatar
