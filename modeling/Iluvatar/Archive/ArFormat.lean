/-
Archives as `ar` writes them, in the GNU and the BSD variant.

Either variant gives a member a header, the data, and a byte of padding after data of odd length.
They differ in where a name goes that the header has no room for.
-/
import Mathlib.Data.Nat.Digits.Lemmas
import Iluvatar.Archive.Ar

namespace Iluvatar
namespace Ar

/-! ## Headers -/

/-- A number in digits, the highest first. -/
def numeral (radix n : Nat) : List Byte :=
  if n = 0 then [48] else (Nat.digits radix n).reverse.map fun d => UInt8.ofNat (48 + d)

/-- Text in a field that spaces fill up. -/
def spaced (width : Nat) (text : List Byte) : List Byte := text ++ List.replicate (width - text.length) 32

/-- A number in a field, or a blank one. -/
def numberField (radix width : Nat) : Option Nat → List Byte
  | none => spaced width []
  | some n => spaced width (numeral radix n)

/-- The numbers of a header besides the size. -/
structure Stamp where
  mtime : Option Nat
  uid : Option Nat
  gid : Option Nat
  mode : Option Nat
  mtime_lt : ∀ n ∈ mtime, n < 10 ^ 12
  uid_lt : ∀ n ∈ uid, n < 10 ^ 6
  gid_lt : ∀ n ∈ gid, n < 10 ^ 6
  mode_lt : ∀ n ∈ mode, n < 8 ^ 8

/-- A member as it is written: the name in its header, the name before its data if there is one, and
the path of the file that it is, if it is one. -/
structure Record where
  path : Option String
  name : List Byte
  stamp : Stamp
  inlineName : List Byte
  data : List Byte

namespace Record

/-- The size that the header tells. -/
def size (r : Record) : Nat := r.inlineName.length + r.data.length

def header (r : Record) : List Byte :=
  spaced 16 r.name ++ (numberField 10 12 r.stamp.mtime ++ (numberField 10 6 r.stamp.uid ++
    (numberField 10 6 r.stamp.gid ++ (numberField 8 8 r.stamp.mode ++ (numberField 10 10 (some r.size) ++ fmag)))))

/-- What follows data of the size. -/
def padding (size : Nat) : List Byte := if size % 2 = 1 then [10] else []

def bytes (r : Record) : List Byte := r.header ++ (r.inlineName ++ (r.data ++ padding r.size))

/-- The entry of a record that begins at `pos`. -/
def entryAt (pos : Nat) (r : Record) : List ArchiveEntry :=
  match r.path with
  | none => []
  | some path =>
    [{ path
       size := r.data.length
       entryType := .regular
       mode := r.stamp.mode.getD 0 % 2 ^ 12
       uid := r.stamp.uid.getD 0
       gid := r.stamp.gid.getD 0
       mtime := r.stamp.mtime.getD 0
       linkTarget := none
       dataOffset := pos + headerSize + r.inlineName.length }]

/-- The entries of records the first of which begins at `pos`. -/
def entriesFrom : Nat → List Record → List ArchiveEntry
  | _, [] => []
  | pos, r :: rs => r.entryAt pos ++ entriesFrom (pos + r.bytes.length) rs

/-- Where the records may end: before one, after the last, or with only the padding of one missing. -/
def stops : List Record → List Nat
  | [] => [0]
  | r :: rs =>
    0 :: ((if r.size % 2 = 1 then [r.bytes.length - 1] else []) ++ (stops rs).map (r.bytes.length + ·))

/-- The record of a symbol table, of either variant. -/
structure IsSymbols (r : Record) : Prop where
  path : r.path = none
  fits : r.size < 10 ^ 10
  named : (r.inlineName = [] ∧ r.name ∈ [ascii "/", ascii "/SYM64/", ascii "/<ECSYMBOLS>/"]) ∨
    (r.inlineName = [] ∧ r.name.take 9 = ascii "__.SYMDEF" ∧ r.name.length ≤ 16 ∧ r.name.getLast? ≠ some 32) ∨
    (r.name = ascii "#1/" ++ numeral 10 r.inlineName.length ∧ r.inlineName.take 9 = ascii "__.SYMDEF" ∧
      r.inlineName.length ≤ maxNameSize)

end Record

/-! ## Files -/

/-- A file to write.  Its name is text, and not one that means something else to a reader. -/
structure File where
  path : String
  name : List Byte
  stamp : Stamp
  data : List Byte
  named : fromUtf8 name = some path
  nonempty : name ≠ []
  noNul : 0 ∉ name
  noNewline : 10 ∉ name
  notSlash : name.take 1 ≠ ascii "/"
  notInline : name.take 3 ≠ ascii "#1/"
  notSymbols : name.take 9 ≠ ascii "__.SYMDEF"
  noSlash : name.getLast? ≠ some 47

/-- Names longer than this go to the long-name table. -/
def shortName : Nat := 15

/-- The GNU variant, with the numbers of the long-name table's header, and the BSD variant, with how
many NULs it puts behind a name. -/
inductive Dialect where
  | gnu (tableStamp : Stamp)
  | bsd (nuls : List Byte → Nat)

/-- The GNU long-name table. -/
def longNames : List File → List Byte
  | [] => []
  | f :: fs => if shortName < f.name.length then f.name ++ ascii "/\n" ++ longNames fs else longNames fs

/-- The records of files in the GNU variant, with the long names from `offset` on. -/
def gnuRecords : Nat → List File → List Record
  | _, [] => []
  | offset, f :: fs =>
    let named name : Record := { path := some f.path, name, stamp := f.stamp, inlineName := [], data := f.data }
    if shortName < f.name.length then
      named (ascii "/" ++ numeral 10 offset) :: gnuRecords (offset + (f.name.length + 2)) fs
    else named (f.name ++ ascii "/") :: gnuRecords offset fs

/-- The name that stands before the data in the BSD variant. -/
def bsdName (nuls : List Byte → Nat) (f : File) : List Byte := f.name ++ List.replicate (nuls f.name) 0

def bsdRecord (nuls : List Byte → Nat) (f : File) : Record :=
  { path := some f.path
    name := ascii "#1/" ++ numeral 10 (bsdName nuls f).length
    stamp := f.stamp
    inlineName := bsdName nuls f
    data := f.data }

def tableRecord (tableStamp : Stamp) (table : List Byte) : Record :=
  { path := none, name := ascii "//", stamp := tableStamp, inlineName := [], data := table }

/-- The records of files, a long-name table first if there is need of one. -/
def fileRecords : Dialect → List File → List Record
  | .gnu tableStamp, files =>
    (if longNames files = [] then [] else [tableRecord tableStamp (longNames files)]) ++ gnuRecords 0 files
  | .bsd nuls, files => files.map (bsdRecord nuls)

/-- The archive of records. -/
def archive (records : List Record) : List Byte := arMagic ++ records.flatMap Record.bytes

/-- Nothing is too large for a header's field or for the parser. -/
def WithinLimits : Dialect → List File → Prop
  | .gnu _, files => (∀ f ∈ files, f.data.length < 10 ^ 10) ∧ (longNames files).length ≤ maxNameTableSize
  | .bsd nuls, files => ∀ f ∈ files,
    (bsdName nuls f).length ≤ maxNameSize ∧ (bsdName nuls f).length + f.data.length < 10 ^ 10

/-- No name is written as if a BSD name followed. -/
def NoneAmbiguous : Dialect → List File → Prop
  | .gnu _, files => ∀ f ∈ files, f.name ≠ ascii "#1"
  | .bsd _, _ => True

/-! ## A header read back -/

theorem numeral_ne_nil (radix n : Nat) : numeral radix n ≠ [] := by
  unfold numeral
  split
  · simp
  · next hn =>
    simp only [ne_eq, List.map_eq_nil_iff, List.reverse_eq_nil_iff]
    exact Nat.digits_ne_nil_iff_ne_zero.mpr hn

theorem numeral_digit {radix n : Nat} (hradix : 1 < radix) (hmost : radix ≤ 10) {b : Byte} (h : b ∈ numeral radix n) :
    48 ≤ b.toNat ∧ b.toNat ≤ 57 := by
  unfold numeral at h
  split at h
  · obtain rfl := List.mem_singleton.mp h
    decide
  · obtain ⟨d, hd, rfl⟩ := List.mem_map.mp h
    have hlt := Nat.digits_lt_base hradix (List.mem_reverse.mp hd)
    rw [UInt8.toNat_ofNat']
    omega

theorem numeral_length {radix n k : Nat} (hradix : 1 < radix) (hk : 0 < k) (h : n < radix ^ k) :
    (numeral radix n).length ≤ k := by
  unfold numeral
  split
  · exact hk
  · rw [List.length_map, List.length_reverse]
    exact (Nat.digits_length_le_iff hradix n).mpr h

theorem digitOf_digit {radix d : Nat} (hmost : radix ≤ 10) (hd : d < radix) :
    digitOf radix (UInt8.ofNat (48 + d)) = some d := by
  have hvalue : (UInt8.ofNat (48 + d)).toNat = 48 + d := by
    rw [UInt8.toNat_ofNat']
    omega
  have hdigit : 48 ≤ 48 + d ∧ 48 + d ≤ 57 := by omega
  unfold digitOf
  simp only [hvalue, if_pos hdigit, Nat.add_sub_cancel_left, if_pos hd]

/-- Digits are read as they are added up. -/
theorem foldlM_digits {radix : Nat} (hmost : radix ≤ 10) (ds : List Nat) (hds : ∀ d ∈ ds, d < radix) (start : Nat) :
    (ds.map fun d => UInt8.ofNat (48 + d)).foldlM (fun acc b => (digitOf radix b).map (acc * radix + ·)) start =
      some (ds.foldl (fun acc d => acc * radix + d) start) := by
  induction ds generalizing start with
  | nil => rfl
  | cons d ds ih =>
    rw [List.map_cons, List.foldlM_cons, digitOf_digit hmost (hds d List.mem_cons_self)]
    exact ih (fun d hd => hds d (List.mem_cons_of_mem _ hd)) _

/-- The digits of a number add up to it. -/
theorem foldlM_numeral {radix : Nat} (hradix : 1 < radix) (hmost : radix ≤ 10) (n : Nat) :
    (numeral radix n).foldlM (fun acc b => (digitOf radix b).map (acc * radix + ·)) 0 = some n := by
  unfold numeral
  by_cases hn : n = 0
  · have hzero : digitOf radix 48 = some 0 := digitOf_digit (d := 0) hmost (by omega)
    rw [if_pos hn, hn, List.foldlM_cons, hzero]
    simp
  · rw [if_neg hn, foldlM_digits hmost _ fun d hd => Nat.digits_lt_base hradix (List.mem_reverse.mp hd),
      List.foldl_reverse]
    have hvalue := Nat.ofDigits_digits radix n
    rw [Nat.ofDigits_eq_foldr] at hvalue
    have hstep : (fun d acc => acc * radix + d) = fun (d acc : Nat) => (Nat.cast d : Nat) + radix * acc := by
      funext d acc
      rw [Nat.mul_comm, Nat.add_comm]
      rfl
    rw [hstep]
    exact congrArg some hvalue

theorem fromStrRadix_numeral {radix : Nat} (hradix : 1 < radix) (hmost : radix ≤ 10) (n : Nat) :
    fromStrRadix radix (numeral radix n) = some n := by
  have hfold := foldlM_numeral hradix hmost n
  obtain ⟨b, rest, hform⟩ := List.exists_cons_of_ne_nil (numeral_ne_nil radix n)
  have hdigit := numeral_digit hradix hmost (b := b) (n := n) (by rw [hform]; exact List.mem_cons_self)
  have hplus : b ≠ 43 := by
    rintro rfl
    exact absurd hdigit (by decide)
  unfold fromStrRadix
  rw [hform] at hfold ⊢
  simp only [if_neg hplus, List.isEmpty_cons, Bool.false_eq_true, if_false]
  exact hfold

theorem trimEnd_replicate {b : Byte} {text : List Byte} (n : Nat) (h : text.getLast? ≠ some b) :
    trimEnd b (text ++ List.replicate n b) = text := by
  have hback : ∀ m, (List.replicate m b ++ text.reverse).dropWhile (· == b) = text.reverse := by
    intro m
    induction m with
    | zero =>
      cases hform : text.reverse with
      | nil => rfl
      | cons c rest =>
        have hlast : text.getLast? = some c := by rw [← List.head?_reverse, hform]; rfl
        have hne : (c == b) = false := by
          rw [beq_eq_false_iff_ne]
          rintro rfl
          exact h hlast
        rw [List.replicate_zero, List.nil_append, List.dropWhile_cons, hne]
        rfl
    | succ m ih =>
      rw [List.replicate_succ, List.cons_append, List.dropWhile_cons, BEq.rfl]
      exact ih
  unfold trimEnd
  rw [List.reverse_append, List.reverse_replicate, hback, List.reverse_reverse]

theorem trimEnd_spaced {text : List Byte} (width : Nat) (h : text.getLast? ≠ some 32) :
    trimEnd 32 (spaced width text) = text := trimEnd_replicate _ h

theorem spaced_length {width : Nat} {text : List Byte} (h : text.length ≤ width) :
    (spaced width text).length = width := by
  unfold spaced
  rw [List.length_append, List.length_replicate]
  omega

theorem numeral_last {radix n : Nat} (hradix : 1 < radix) (hmost : radix ≤ 10) :
    (numeral radix n).getLast? ≠ some 32 := by
  intro hlast
  have hdigit := numeral_digit hradix hmost (List.mem_of_getLast? hlast)
  exact absurd hdigit (by decide)

theorem utf8Chars_ascii (fuel : Nat) {text : List Byte} (h : ∀ b ∈ text, b.toNat < 0x80) :
    ∀ c ∈ utf8Chars fuel text, c.isSome = true := by
  induction fuel generalizing text with
  | zero => simp [utf8Chars]
  | succ fuel ih =>
    cases text with
    | nil => simp [utf8Chars]
    | cons b bs =>
      have hb : utf8Char b bs = (some (Char.ofNat b.toNat), 0) := by
        unfold utf8Char
        exact if_pos (h b List.mem_cons_self)
      intro c hc
      rw [utf8Chars, hb] at hc
      rcases List.mem_cons.mp hc with rfl | hrest
      · rfl
      · exact ih (fun b' hb' => h b' (List.mem_cons_of_mem _ hb')) c hrest

theorem mapM_isSome {chars : List (Option Char)} (h : ∀ c ∈ chars, c.isSome = true) :
    ∃ text, chars.mapM id = some text := by
  induction chars with
  | nil => exact ⟨[], rfl⟩
  | cons c chars ih =>
    obtain ⟨char, rfl⟩ := Option.isSome_iff_exists.mp (h c List.mem_cons_self)
    obtain ⟨text, htext⟩ := ih fun c hc => h c (List.mem_cons_of_mem _ hc)
    refine ⟨char :: text, ?_⟩
    rw [List.mapM_cons, htext]
    rfl

theorem fromUtf8_ascii {text : List Byte} (h : ∀ b ∈ text, b.toNat < 0x80) : ∃ s, fromUtf8 text = some s := by
  obtain ⟨chars, hchars⟩ := mapM_isSome (utf8Chars_ascii text.length h)
  exact ⟨_, by rw [fromUtf8, hchars]; rfl⟩

/-- A number written is the number read; a blank field is zero. -/
theorem parseField_numberField {radix : Nat} (hradix : 1 < radix) (hmost : radix ≤ 10) (width : Nat)
    (number : Option Nat) (what : String) :
    parseField (numberField radix width number) radix what = .ok (number.getD 0) := by
  have hspaces : ∀ (text : List Byte), (∀ b ∈ text, b.toNat < 0x80) → ∀ b ∈ spaced width text, b.toNat < 0x80 := by
    intro text htext b hb
    rcases List.mem_append.mp hb with htold | hspace
    · exact htext b htold
    · rw [List.eq_of_mem_replicate hspace]
      decide
  cases number with
  | none =>
    obtain ⟨s, hs⟩ := fromUtf8_ascii (hspaces [] (by simp))
    have hblank : trimEnd 32 (spaced width []) = [] := trimEnd_spaced width (by simp)
    unfold parseField numberField
    simp only [hs, hblank, List.isEmpty_nil, if_true]
    rfl
  | some n =>
    have hdigits : ∀ b ∈ numeral radix n, b.toNat < 0x80 := by
      intro b hb
      have hdigit := numeral_digit hradix hmost hb
      omega
    obtain ⟨s, hs⟩ := fromUtf8_ascii (hspaces _ hdigits)
    have htext : trimEnd 32 (spaced width (numeral radix n)) = numeral radix n :=
      trimEnd_spaced width (numeral_last hradix hmost)
    have hne : (numeral radix n).isEmpty = false := by simpa using numeral_ne_nil radix n
    unfold parseField numberField
    simp only [hs, htext, hne, Bool.false_eq_true, if_false, fromStrRadix_numeral hradix hmost]
    rfl

theorem numberField_length {radix width : Nat} (hradix : 1 < radix) (hwidth : 0 < width) {number : Option Nat}
    (h : ∀ n ∈ number, n < radix ^ width) : (numberField radix width number).length = width := by
  cases number with
  | none => exact spaced_length (Nat.zero_le _)
  | some n => exact spaced_length (numeral_length hradix hwidth (h n rfl))

namespace Record

/-- A record whose header has room for what it says. -/
structure Writable (r : Record) : Prop where
  short : r.name.length ≤ 16
  trimmed : r.name.getLast? ≠ some 32
  fits : r.size < 10 ^ 10

/-- What a reader of the header learns. -/
def told (r : Record) : ArHeader :=
  { name := r.name
    mtime := r.stamp.mtime.getD 0
    uid := r.stamp.uid.getD 0
    gid := r.stamp.gid.getD 0
    mode := r.stamp.mode.getD 0 % 2 ^ 32
    size := r.size }

variable {r : Record}

theorem header_length (h : r.Writable) : r.header.length = headerSize := by
  have hsize : ∀ n ∈ some r.size, n < 10 ^ 10 := by
    intro n hn
    obtain rfl := Option.some.inj hn
    exact h.fits
  unfold header
  simp only [List.length_append, spaced_length h.short, numberField_length (by omega) (by omega) r.stamp.mtime_lt,
    numberField_length (by omega) (by omega) r.stamp.uid_lt, numberField_length (by omega) (by omega) r.stamp.gid_lt,
    numberField_length (by omega) (by omega) r.stamp.mode_lt, numberField_length (by omega) (by omega) hsize]
  rfl

theorem drop_field {field rest : List Byte} {n k : Nat} (h : field.length = n) :
    (field ++ rest).drop (n + k) = rest.drop k := by
  rw [← List.drop_drop, List.drop_left' h]

/-- The header read back. -/
theorem parseHeader_header (h : r.Writable) : parseHeader r.header = .ok r.told := by
  have hlength := header_length h
  have hname := spaced_length h.short
  have hmtime := numberField_length (by omega) (by omega) r.stamp.mtime_lt
  have huid := numberField_length (by omega) (by omega) r.stamp.uid_lt
  have hgid := numberField_length (by omega) (by omega) r.stamp.gid_lt
  have hmode := numberField_length (by omega) (by omega) r.stamp.mode_lt
  have hsize : (numberField 10 10 (some r.size)).length = 10 := by
    refine numberField_length (by omega) (by omega) fun n hn => ?_
    obtain rfl := Option.some.inj hn
    exact h.fits
  -- where each of the fields is
  have hmtimeAt : (r.header.drop 16).take 12 = numberField 10 12 r.stamp.mtime := by
    show (r.header.drop (16 + 0)).take 12 = _
    unfold header
    rw [drop_field hname, List.drop_zero, List.take_left' hmtime]
  have huidAt : (r.header.drop 28).take 6 = numberField 10 6 r.stamp.uid := by
    show (r.header.drop (16 + (12 + 0))).take 6 = _
    unfold header
    rw [drop_field hname, drop_field hmtime, List.drop_zero, List.take_left' huid]
  have hgidAt : (r.header.drop 34).take 6 = numberField 10 6 r.stamp.gid := by
    show (r.header.drop (16 + (12 + (6 + 0)))).take 6 = _
    unfold header
    rw [drop_field hname, drop_field hmtime, drop_field huid, List.drop_zero, List.take_left' hgid]
  have hmodeAt : (r.header.drop 40).take 8 = numberField 8 8 r.stamp.mode := by
    show (r.header.drop (16 + (12 + (6 + (6 + 0))))).take 8 = _
    unfold header
    rw [drop_field hname, drop_field hmtime, drop_field huid, drop_field hgid, List.drop_zero, List.take_left' hmode]
  have hsizeAt : (r.header.drop 48).take 10 = numberField 10 10 (some r.size) := by
    show (r.header.drop (16 + (12 + (6 + (6 + (8 + 0)))))).take 10 = _
    unfold header
    rw [drop_field hname, drop_field hmtime, drop_field huid, drop_field hgid, drop_field hmode, List.drop_zero,
      List.take_left' hsize]
  have hfmagAt : (r.header.drop 58).take 2 = fmag := by
    show (r.header.drop (16 + (12 + (6 + (6 + (8 + (10 + 0))))))).take 2 = _
    unfold header
    rw [drop_field hname, drop_field hmtime, drop_field huid, drop_field hgid, drop_field hmode, drop_field hsize]
    rfl
  have htrim : trimEnd 32 (r.header.take 16) = r.name := by
    have htake : r.header.take 16 = spaced 16 r.name := List.take_left' hname
    rw [htake, trimEnd_spaced 16 h.trimmed]
  unfold parseHeader
  rw [if_neg (by omega), hfmagAt, if_neg (by simp), hmtimeAt, huidAt, hgidAt, hmodeAt, hsizeAt, htrim]
  simp only [parseField_numberField (show 1 < 10 by omega) (Nat.le_refl 10),
    parseField_numberField (show 1 < 8 by omega) (show 8 ≤ 10 by omega)]
  rfl

end Record

end Ar
end Iluvatar
