/-
What is written comes out again: the ar parser on archives of both variants.

A record is read in one of few ways, whichever variant wrote it, and a name that the header has no room
for is found in the long-name table or before the data.
-/
import Iluvatar.Archive.ArRuns

namespace Iluvatar

theorem lossy_of_some : ∀ {chars : List (Option Char)} {text : List Char}, chars.mapM id = some text →
    chars.map (Option.getD · '\uFFFD') = text
  | [], text, h => by
    obtain rfl := Option.some.inj h
    rfl
  | none :: chars, text, h => by
    rw [List.mapM_cons] at h
    cases h
  | some c :: chars, text, h => by
    rw [List.mapM_cons] at h
    cases hrest : chars.mapM id with
    | none =>
      rw [hrest] at h
      cases h
    | some rest =>
      rw [hrest] at h
      obtain rfl := Option.some.inj h
      rw [List.map_cons, lossy_of_some hrest]
      rfl

/-- Text that is valid is read as it is. -/
theorem fromUtf8Lossy_of_some {data : List Byte} {text : String} (h : fromUtf8 data = some text) :
    fromUtf8Lossy data = text := by
  unfold fromUtf8 at h
  obtain ⟨chars, hchars, rfl⟩ := Option.map_eq_some_iff.mp h
  unfold fromUtf8Lossy lossyChars
  rw [lossy_of_some hchars]

namespace ArParser

open Ar

/-! ## Names -/

theorem parseNameNumber_numeral (n : Nat) : parseNameNumber (numeral 10 n) = some n := by
  have hne : (numeral 10 n).isEmpty = false := by simpa using numeral_ne_nil 10 n
  have hdigits : (numeral 10 n).all (fun b => decide (48 ≤ b.toNat ∧ b.toNat ≤ 57)) = true := by
    rw [List.all_eq_true]
    exact fun b hb => decide_eq_true (numeral_digit (by decide) (Nat.le_refl 10) hb)
  unfold parseNameNumber
  rw [hne, hdigits, if_neg (by decide)]
  exact fromStrRadix_numeral (by decide) (Nat.le_refl 10) n

theorem stripSlash_slash (name : List Byte) : stripSlash (name ++ [47]) = name := by
  unfold stripSlash
  rw [List.getLast?_concat, if_pos rfl, List.dropLast_concat]

theorem ascii_slash : ascii "/" = [47] := ascii_ofList _

theorem ascii_inline : ascii "#1/" = [35, 49, 47] := ascii_ofList _

theorem ascii_symbols : ascii "__.SYMDEF" = [95, 95, 46, 83, 89, 77, 68, 69, 70] := ascii_ofList _

theorem ascii_table : ascii "//" = [47, 47] := ascii_ofList _

theorem ascii_longEnd : ascii "/\n" = [47, 10] := ascii_ofList _

variable {r : Record} {table : Option (List Byte)}

/-- A name in the GNU variant that is short is what it says. -/
theorem classified_short {f : File} (hname : r.name = f.name ++ ascii "/") (hhash : f.name ≠ ascii "#1") :
    Classified table r (.named f.path) := by
  intro pos
  have hne := f.nonempty
  have hslash := f.notSlash
  have hinline := f.notInline
  have hsymbols := f.notSymbols
  rw [ascii_slash] at hname hslash
  rw [ascii_inline] at hinline
  rw [ascii_symbols] at hsymbols
  obtain ⟨b, rest, hform⟩ := List.exists_cons_of_ne_nil hne
  have htold : r.told.name = f.name ++ [47] := hname
  have hnotTable : f.name ++ [47] ≠ ascii "//" := by
    rw [ascii_table]
    intro heq
    have hone : f.name = [47] := List.append_cancel_right (heq.trans (show [47, 47] = [47] ++ [47] from rfl))
    rw [hone] at hslash
    exact hslash rfl
  have hnotSlash : (f.name ++ [47]).take 1 ≠ ascii "/" := by
    rw [ascii_slash, hform]
    rw [hform] at hslash
    exact hslash
  have hnotInline : (f.name ++ [47]).take 3 ≠ ascii "#1/" := by
    rw [ascii_inline]
    intro heq
    by_cases hlong : 3 ≤ f.name.length
    · rw [List.take_append_of_le_length hlong] at heq
      exact hinline heq
    · rw [List.take_of_length_le (by rw [List.length_append, List.length_singleton]; omega)] at heq
      have htwo : f.name = [35, 49] :=
        List.append_cancel_right (heq.trans (show [35, 49, 47] = [35, 49] ++ [47] from rfl))
      exact hhash (htwo.trans (by decide))
  have hnotSymbols : (f.name ++ [47]).take 9 ≠ ascii "__.SYMDEF" := by
    rw [ascii_symbols]
    intro heq
    by_cases hlong : 9 ≤ f.name.length
    · rw [List.take_append_of_le_length hlong] at heq
      exact hsymbols heq
    · rw [List.take_of_length_le (by rw [List.length_append, List.length_singleton]; omega)] at heq
      have hmem : (47 : Byte) ∈ f.name ++ [47] := List.mem_append_right _ List.mem_cons_self
      rw [heq] at hmem
      exact absurd hmem (by decide)
  have hempty : f.name.isEmpty = false := by simpa using hne
  unfold classify
  rw [htold, if_neg hnotTable, if_neg hnotSlash, if_neg hnotInline, if_neg hnotSymbols]
  simp only [stripSlash_slash, hempty, Bool.false_eq_true, if_false]
  rw [fromUtf8Lossy_of_some f.named]

/-- A name in the long-name table is what the table says at its place. -/
theorem classified_long {f : File} {names rest : List Byte} {offset : Nat}
    (hname : r.name = ascii "/" ++ numeral 10 offset) (hat : names.drop offset = f.name ++ (ascii "/\n" ++ rest)) :
    Classified (some names) r (.named f.path) := by
  intro pos
  rw [ascii_slash] at hname
  rw [ascii_longEnd] at hat
  have htold : r.told.name = [47] ++ numeral 10 offset := hname
  obtain ⟨b, digits, hform⟩ := List.exists_cons_of_ne_nil (numeral_ne_nil 10 offset)
  have hdigit := numeral_digit (n := offset) (b := b) (show 1 < 10 by decide) (Nat.le_refl 10)
    (by rw [hform]; exact List.mem_cons_self)
  have hnotTable : [47] ++ numeral 10 offset ≠ ascii "//" := by
    rw [ascii_table, hform]
    intro heq
    obtain ⟨_, hrest⟩ := List.cons.inj heq
    obtain ⟨rfl, _⟩ := List.cons.inj hrest
    exact absurd hdigit (by decide)
  have htake : (names.drop offset).takeWhile (fun b => b != 10 && b != 0) = f.name ++ [47] := by
    have hplain : ∀ b ∈ f.name, (b != 10 && b != 0) = true := by
      intro b hb
      have hnewline : b ≠ 10 := fun h => f.noNewline (h ▸ hb)
      have hnul : b ≠ 0 := fun h => f.noNul (h ▸ hb)
      simp [hnewline, hnul]
    rw [hat, List.takeWhile_append_of_pos hplain]
    rfl
  have hwithin : ¬ names.length < offset := by
    intro hpast
    rw [List.drop_of_length_le (Nat.le_of_lt hpast)] at hat
    exact absurd hat.symm (by simp)
  have hempty : f.name.isEmpty = false := by simpa using f.nonempty
  have hlookup : (atBoundary pos (some names)).lookupLongName offset = .ok f.path := by
    unfold lookupLongName atBoundary
    simp only [if_neg hwithin, htake, stripSlash_slash, hempty, Bool.false_eq_true, if_false]
    rw [fromUtf8Lossy_of_some f.named]
  have hfirst : ([47] ++ numeral 10 offset).take 1 = [47] := rfl
  unfold classify
  rw [htold, if_neg hnotTable, ascii_slash, if_pos hfirst]
  simp only [List.singleton_append, List.drop_succ_cons, List.drop_zero, parseNameNumber_numeral, hlookup]
  rfl

theorem classified_table (hname : r.name = ascii "//") : Classified table r .nameTable := by
  intro pos
  have htold : r.told.name = ascii "//" := hname
  unfold classify
  rw [htold, if_pos rfl]

/-- A name before the data has its length in the header. -/
theorem classified_inline (hname : r.name = ascii "#1/" ++ numeral 10 r.inlineName.length)
    (hmost : r.inlineName.length ≤ Ar.maxNameSize) : Classified table r (.bsdName r.inlineName.length) := by
  intro pos
  rw [ascii_inline] at hname
  have htold : r.told.name = [35, 49, 47] ++ numeral 10 r.inlineName.length := hname
  have hwithin : r.inlineName.length ≤ r.told.size := Nat.le_add_right _ _
  have hnotTable : [35, 49, 47] ++ numeral 10 r.inlineName.length ≠ ascii "//" := by
    rw [ascii_table]
    intro heq
    exact absurd (List.cons.inj heq).1 (by decide)
  have hfirst : ([35, 49, 47] ++ numeral 10 r.inlineName.length).take 3 = [35, 49, 47] := rfl
  unfold classify
  rw [htold, if_neg hnotTable, ascii_slash, if_neg (by simp), ascii_inline, if_pos hfirst]
  have hdrop : ([35, 49, 47] ++ numeral 10 r.inlineName.length).drop 3 = numeral 10 r.inlineName.length := rfl
  simp only [hdrop, parseNameNumber_numeral, Option.filter_some, decide_eq_true (And.intro hmost hwithin), if_true]

/-! ## What is written is read -/

/-- The header has room for the length of a name before the data. -/
theorem inline_writable (hname : r.name = ascii "#1/" ++ numeral 10 r.inlineName.length)
    (hmost : r.inlineName.length ≤ Ar.maxNameSize) (hfits : r.size < 10 ^ 10) : r.Writable where
  short := by
    have hsmall : r.inlineName.length < 10 ^ 13 := Nat.lt_of_le_of_lt hmost (by decide)
    have hlength := numeral_length (show 1 < 10 by decide) (show 0 < 13 by decide) hsmall
    rw [hname, ascii_inline, List.length_append]
    exact Nat.add_le_add_left hlength 3
  trimmed := by
    rw [hname, List.getLast?_append_of_ne_nil _ (numeral_ne_nil 10 _)]
    exact numeral_last (by decide) (Nat.le_refl 10)
  fits := hfits

theorem symbols_not_slash {name : List Byte} (h : name.take 9 = ascii "__.SYMDEF") :
    name ≠ ascii "//" ∧ name.take 1 ≠ ascii "/" ∧ name.take 3 ≠ ascii "#1/" := by
  rw [ascii_symbols] at h
  have hone : name.take 1 = [95] := by
    have htake := congrArg (List.take 1) h
    rwa [List.take_take] at htake
  have hthree : name.take 3 = [95, 95, 46] := by
    have htake := congrArg (List.take 3) h
    rwa [List.take_take] at htake
  refine ⟨?_, ?_, ?_⟩
  · rintro rfl
    rw [ascii_table] at hone
    exact absurd hone (by decide)
  · rw [hone, ascii_slash]
    decide
  · rw [hthree, ascii_inline]
    decide

theorem trimEnd_split (b : Byte) (data : List Byte) : ∃ n, data = trimEnd b data ++ List.replicate n b := by
  refine ⟨(data.reverse.takeWhile (· == b)).length, ?_⟩
  have hall : data.reverse.takeWhile (· == b) = List.replicate (data.reverse.takeWhile (· == b)).length b := by
    refine List.eq_replicate_of_mem fun c hc => ?_
    have hsame := List.all_eq_true.mp List.all_takeWhile c hc
    exact beq_iff_eq.mp hsame
  have hsplit := congrArg List.reverse (List.takeWhile_append_dropWhile (p := (· == b)) (l := data.reverse))
  rw [List.reverse_append, List.reverse_reverse] at hsplit
  conv_lhs => rw [← hsplit]
  rw [hall, List.reverse_replicate, List.length_replicate]
  rfl

/-- NULs behind a symbol table's name do not hide it. -/
theorem trimEnd_symbols {name : List Byte} (h : name.take 9 = ascii "__.SYMDEF") :
    (trimEnd 0 name).take 9 = ascii "__.SYMDEF" := by
  obtain ⟨n, hsplit⟩ := trimEnd_split 0 name
  rw [hsplit] at h
  by_cases hlong : 9 ≤ (trimEnd 0 name).length
  · rwa [List.take_append_of_le_length hlong] at h
  · exfalso
    rw [ascii_symbols, List.take_append, List.take_of_length_le (by omega), List.take_replicate] at h
    have hlength := congrArg List.length h
    rw [List.length_append, List.length_replicate] at hlength
    have hsome : min (9 - (trimEnd 0 name).length) n ≠ 0 := by
      intro hzero
      rw [hzero] at hlength
      simp only [List.length_cons, List.length_nil] at hlength
      omega
    have hmem : (0 : Byte) ∈ trimEnd 0 name ++ List.replicate (min (9 - (trimEnd 0 name).length) n) 0 :=
      List.mem_append_right _ (List.mem_replicate.mpr ⟨hsome, rfl⟩)
    rw [h] at hmem
    exact absurd hmem (by decide)

/-- A symbol table is passed over, whichever variant it is of. -/
theorem symbols_read (h : r.IsSymbols) : r.Writable ∧ Reads table r table := by
  have hfits := h.fits
  rcases h.named with ⟨hinline, hname⟩ | ⟨hinline, hname, hshort, htrimmed⟩ | ⟨hname, hinline, hmost⟩
  · have hall : ∀ name ∈ [ascii "/", ascii "/SYM64/", ascii "/<ECSYMBOLS>/"],
        name ≠ ascii "//" ∧ name.take 1 = ascii "/" ∧ parseNameNumber (name.drop 1) = none ∧ name.length ≤ 16 ∧
          name.getLast? ≠ some 32 := by decide
    obtain ⟨hnotTable, hslash, hnumber, hshort, htrimmed⟩ := hall _ hname
    refine ⟨⟨hshort, htrimmed, hfits⟩, .skipped hinline h.path fun pos => ?_⟩
    unfold classify
    rw [if_neg (show ¬ r.told.name = _ from hnotTable), if_pos (show r.told.name.take 1 = _ from hslash)]
    have htold : parseNameNumber (r.told.name.drop 1) = none := hnumber
    rw [htold]
  · obtain ⟨hnotTable, hnotSlash, hnotInline⟩ := symbols_not_slash hname
    refine ⟨⟨hshort, htrimmed, hfits⟩, .skipped hinline h.path fun pos => ?_⟩
    unfold classify
    rw [if_neg (show ¬ r.told.name = _ from hnotTable), if_neg (show ¬ r.told.name.take 1 = _ from hnotSlash),
      if_neg (show ¬ r.told.name.take 3 = _ from hnotInline), if_pos (show r.told.name.take 9 = _ from hname)]
  · have hsymbols := trimEnd_symbols hinline
    have hne : r.inlineName ≠ [] := by
      intro hnil
      rw [hnil, ascii_symbols] at hinline
      cases hinline
    exact ⟨inline_writable hname hmost hfits, .bsdSymbols hne h.path hsymbols (classified_inline hname hmost)⟩

theorem symbols_readAll {symbols : List Record} (h : ∀ r ∈ symbols, r.IsSymbols) : ReadsAll table symbols table := by
  induction symbols with
  | nil => exact .nil table
  | cons r symbols ih =>
    obtain ⟨hwritable, hreads⟩ := @symbols_read r table (h r List.mem_cons_self)
    exact .cons hwritable hreads (ih fun r hr => h r (List.mem_cons_of_mem _ hr))

theorem file_not_space {f : File} : (f.name ++ ascii "/").getLast? ≠ some 32 := by
  rw [ascii_slash, List.getLast?_concat]
  decide

/-- The records of the GNU variant, with the long names from `offset` on in the table. -/
theorem gnu_readAll {files : List File} : ∀ {offset : Nat}, (table.getD []).drop offset = longNames files →
    (table.getD []).length ≤ Ar.maxNameTableSize → (∀ f ∈ files, f.data.length < 10 ^ 10) →
    (∀ f ∈ files, f.name ≠ ascii "#1") → ReadsAll table (gnuRecords offset files) table := by
  induction files with
  | nil => exact fun _ _ _ _ => .nil table
  | cons f files ih =>
    intro offset hat hsmall hfits hhash
    have hfit := hfits f List.mem_cons_self
    have hfits' : ∀ f ∈ files, f.data.length < 10 ^ 10 := fun f hf => hfits f (List.mem_cons_of_mem _ hf)
    have hhash' : ∀ f ∈ files, f.name ≠ ascii "#1" := fun f hf => hhash f (List.mem_cons_of_mem _ hf)
    unfold longNames at hat
    unfold gnuRecords
    by_cases hlong : shortName < f.name.length
    · rw [if_pos hlong] at hat
      simp only [if_pos hlong]
      rw [List.append_assoc] at hat
      have hwithin : offset < (table.getD []).length := by
        by_contra hpast
        rw [List.drop_of_length_le (Nat.le_of_not_lt hpast)] at hat
        have hnil := congrArg List.length hat
        rw [List.length_append, List.length_nil] at hnil
        omega
      have hrest : (table.getD []).drop (offset + (f.name.length + 2)) = longNames files := by
        rw [← List.drop_drop, hat, ← List.drop_drop, List.drop_left, ascii_longEnd]
        rfl
      have hwritable : Record.Writable
          { path := some f.path, name := ascii "/" ++ numeral 10 offset, stamp := f.stamp, inlineName := [],
            data := f.data } :=
        { short := by
            have hmost : offset < 10 ^ 15 := Nat.lt_trans (Nat.lt_of_lt_of_le hwithin hsmall) (by decide)
            have hlength := numeral_length (show 1 < 10 by decide) (show 0 < 15 by decide) hmost
            rw [List.length_append, ascii_slash]
            exact Nat.add_le_add_left hlength 1
          trimmed := by
            rw [List.getLast?_append_of_ne_nil _ (numeral_ne_nil 10 _)]
            exact numeral_last (by decide) (Nat.le_refl 10)
          fits := by
            unfold Record.size
            rw [List.length_nil, Nat.zero_add]
            exact hfit }
      refine .cons hwritable ?_ (ih hrest hsmall hfits' hhash')
      cases table with
      | none => exact absurd hwithin (Nat.not_lt_zero offset)
      | some names => exact .named f.path rfl rfl (classified_long rfl hat)
    · rw [if_neg hlong] at hat
      simp only [if_neg hlong]
      have hwritable : Record.Writable
          { path := some f.path, name := f.name ++ ascii "/", stamp := f.stamp, inlineName := [],
            data := f.data } :=
        { short := by
            rw [List.length_append, ascii_slash]
            exact Nat.succ_le_succ (Nat.le_of_not_lt hlong)
          trimmed := file_not_space
          fits := by
            unfold Record.size
            rw [List.length_nil, Nat.zero_add]
            exact hfit }
      exact .cons hwritable (.named f.path rfl rfl (classified_short rfl (hhash f List.mem_cons_self)))
        (ih hat hsmall hfits' hhash')

/-- The records of the BSD variant. -/
theorem bsd_readAll {nuls : List Byte → Nat} {files : List File}
    (hlimits : ∀ f ∈ files, (bsdName nuls f).length ≤ Ar.maxNameSize ∧
      (bsdName nuls f).length + f.data.length < 10 ^ 10) : ReadsAll table (files.map (bsdRecord nuls)) table := by
  induction files with
  | nil => exact .nil table
  | cons f files ih =>
    obtain ⟨hmost, hfits⟩ := hlimits f List.mem_cons_self
    have hlast : f.name.getLast? ≠ some 0 := fun h => f.noNul (List.mem_of_getLast? h)
    have htrim : trimEnd 0 (bsdName nuls f) = f.name := trimEnd_replicate _ hlast
    have hwritable : (bsdRecord nuls f).Writable := inline_writable rfl hmost hfits
    refine .cons hwritable (.bsdNamed f.path rfl ?_ ?_ ?_ (classified_inline rfl hmost))
      (ih fun f hf => hlimits f (List.mem_cons_of_mem _ hf))
    · exact fun h => f.nonempty (htrim.symm.trans h)
    · exact fun h => f.notSymbols ((congrArg (List.take 9) htrim.symm).trans h)
    · exact (congrArg fromUtf8Lossy htrim).trans (fromUtf8Lossy_of_some f.named)

theorem files_readAll {d : Dialect} {files : List File} (hlimits : WithinLimits d files)
    (hnames : NoneAmbiguous d files) : ∃ table, ReadsAll none (fileRecords d files) table := by
  cases d with
  | bsd nuls => exact ⟨none, bsd_readAll hlimits⟩
  | gnu tableStamp =>
    obtain ⟨hfits, hsmall⟩ := hlimits
    simp only [fileRecords]
    by_cases hnone : longNames files = []
    · rw [if_pos hnone]
      exact ⟨none, gnu_readAll (by rw [hnone]; rfl) (Nat.zero_le _) hfits hnames⟩
    · rw [if_neg hnone]
      have hsize : (tableRecord tableStamp (longNames files)).size = (longNames files).length :=
        size_eq rfl
      have hwritable : (tableRecord tableStamp (longNames files)).Writable :=
        { short := by
            show (ascii "//").length ≤ 16
            decide
          trimmed := by
            show (ascii "//").getLast? ≠ some 32
            decide
          fits := by
            rw [hsize]
            exact Nat.lt_of_le_of_lt hsmall (by decide) }
      exact ⟨_, .cons hwritable (.nameTable rfl rfl hnone (by rw [hsize]; exact hsmall) (classified_table rfl))
        (gnu_readAll rfl hsmall hfits hnames)⟩

/-! ## Entries -/

/-- An entry is that of a file in an archive: its name and numbers, and its data where it says. -/
structure Describes (plain : List Byte) (f : File) (e : ArchiveEntry) : Prop where
  path : e.path = f.path
  entryType : e.entryType = .regular
  size : e.size = f.data.length
  mode : e.mode = f.stamp.mode.getD 0 % 2 ^ 12
  uid : e.uid = f.stamp.uid.getD 0
  gid : e.gid = f.stamp.gid.getD 0
  mtime : e.mtime = f.stamp.mtime.getD 0
  data : (plain.drop e.dataOffset).take e.size = f.data

/-- A record is that of a file. -/
structure IsFile (f : File) (r : Record) : Prop where
  path : r.path = some f.path
  stamp : r.stamp = f.stamp
  data : r.data = f.data

theorem gnu_isFile {files : List File} : ∀ {offset : Nat}, List.Forall₂ IsFile files (gnuRecords offset files) := by
  induction files with
  | nil => exact .nil
  | cons f files ih =>
    intro offset
    unfold gnuRecords
    by_cases hlong : shortName < f.name.length
    · simp only [if_pos hlong]
      exact .cons ⟨rfl, rfl, rfl⟩ ih
    · simp only [if_neg hlong]
      exact .cons ⟨rfl, rfl, rfl⟩ ih

theorem bsd_isFile {nuls : List Byte → Nat} {files : List File} :
    List.Forall₂ IsFile files (files.map (bsdRecord nuls)) := by
  induction files with
  | nil => exact .nil
  | cons f files ih => exact .cons ⟨rfl, rfl, rfl⟩ ih

/-- Files are behind records that are of no file. -/
theorem fileRecords_isFile (d : Dialect) (files : List File) :
    ∃ front rs, fileRecords d files = front ++ rs ∧ (∀ r ∈ front, r.path = none) ∧ List.Forall₂ IsFile files rs := by
  cases d with
  | bsd nuls =>
    have hnone : ∀ r ∈ ([] : List Record), r.path = none := fun r hr => by cases hr
    exact ⟨[], _, rfl, hnone, bsd_isFile⟩
  | gnu tableStamp =>
    refine ⟨_, _, rfl, fun r hr => ?_, gnu_isFile⟩
    split at hr
    · cases hr
    · obtain rfl := List.mem_singleton.mp hr
      rfl

variable {plain : List Byte} {files : List File} {rs front : List Record}

theorem ReadsAll.writable {table' : Option (List Byte)} (h : ReadsAll table rs table') : ∀ r ∈ rs, r.Writable := by
  induction h with
  | nil => exact fun r hr => by cases hr
  | cons hwritable _ _ ih =>
    intro r hr
    rcases List.mem_cons.mp hr with rfl | hrest
    · exact hwritable
    · exact ih r hrest

theorem entriesFrom_append : ∀ {pos : Nat}, Record.entriesFrom pos (front ++ rs) =
    Record.entriesFrom pos front ++ Record.entriesFrom (pos + (front.flatMap Record.bytes).length) rs := by
  induction front with
  | nil => exact rfl
  | cons r front ih =>
    intro pos
    rw [List.cons_append, Record.entriesFrom, ih, Record.entriesFrom, List.flatMap_cons, List.length_append,
      Nat.add_assoc, List.append_assoc]

theorem entriesFrom_none (h : ∀ r ∈ front, r.path = none) : ∀ {pos : Nat}, Record.entriesFrom pos front = [] := by
  induction front with
  | nil => exact rfl
  | cons r front ih =>
    intro pos
    have hnone : r.entryAt pos = [] := by
      unfold Record.entryAt
      rw [h r List.mem_cons_self]
    rw [Record.entriesFrom, hnone, List.nil_append]
    exact ih fun r hr => h r (List.mem_cons_of_mem _ hr)

/-- The entries of the records of files describe the files. -/
theorem entriesFrom_describes (hfiles : List.Forall₂ IsFile files rs) : (∀ r ∈ rs, r.Writable) →
    ∀ {pos : Nat} {rest : List Byte}, plain.drop pos = rs.flatMap Record.bytes ++ rest →
      List.Forall₂ (Describes plain) files (Record.entriesFrom pos rs) := by
  induction hfiles with
  | nil => exact fun _ _ _ _ => .nil
  | @cons f r files rs hfile _ ih =>
    intro hwritable pos rest hat
    rw [List.flatMap_cons, List.append_assoc] at hat
    have hthen : plain.drop (pos + r.bytes.length) = rs.flatMap Record.bytes ++ rest := by
      rw [← List.drop_drop, hat, List.drop_left]
    have hdata : (plain.drop (pos + Ar.headerSize + r.inlineName.length)).take r.data.length = f.data := by
      unfold Record.bytes at hat
      rw [← List.drop_drop, ← List.drop_drop, hat, List.append_assoc,
        List.drop_left' (Record.header_length (hwritable r List.mem_cons_self)), List.append_assoc, List.drop_left,
        List.append_assoc, List.take_left, hfile.data]
    have hsize : r.data.length = f.data.length := congrArg List.length hfile.data
    have hstamp := hfile.stamp
    have hrest := ih (fun r hr => hwritable r (List.mem_cons_of_mem _ hr)) hthen
    unfold Record.entriesFrom Record.entryAt
    rw [hfile.path]
    refine .cons ?_ hrest
    exact
      { path := rfl
        entryType := rfl
        size := hsize
        mode := by rw [hstamp]
        uid := by rw [hstamp]
        gid := by rw [hstamp]
        mtime := by rw [hstamp]
        data := hdata }

/-! ## Archives -/

theorem archive_whole (h : ReadsAll none rs table) :
    Place.Leads feed (archive rs) { taken := 0, entries := [], parser := new }
      { taken := (archive rs).length, entries := Record.entriesFrom arMagic.length rs,
        parser := atBoundary (archive rs).length table } := by
  have hmagic : (archive rs).drop 0 = arMagic ++ rs.flatMap Record.bytes := rfl
  have hrecords : (archive rs).drop (0 + arMagic.length) = rs.flatMap Record.bytes ++ [] := by
    rw [Nat.zero_add, List.append_nil]
    exact List.drop_left
  have hlength : (archive rs).length = 0 + arMagic.length + (rs.flatMap Record.bytes).length := by
    rw [Nat.zero_add]
    exact List.length_append
  have hleads := (magic_run.whole _ _ 0 [] hmagic).trans (records_whole h hrecords)
  rw [hlength]
  exact hleads

/-- An archive that is cut off is over at the cut, and accepted only at a stop. -/
theorem archive_cut (h : ReadsAll none rs table) {k : Nat} (hk : k ≤ (archive rs).length) :
    ∃ s, Place.Leads feed ((archive rs).take k) { taken := 0, entries := [], parser := new } s ∧
      ((archive rs).take k).drop s.taken = [] ∧
      (Accepts s.parser ↔ ∃ j ∈ Record.stops rs, arMagic.length + j = k) := by
  have hmagic : arMagic.length = 8 := by decide
  have hlength : (archive rs).length = arMagic.length + (rs.flatMap Record.bytes).length := List.length_append
  by_cases hzero : k = 0
  · subst hzero
    refine ⟨_, .refl, rfl, iff_of_false (fun haccepts => by cases haccepts) ?_⟩
    rintro ⟨j, _, hj⟩
    omega
  by_cases hshort : k < arMagic.length
  · have htake : (archive rs).take k = arMagic.take k := List.take_append_of_le_length (Nat.le_of_lt hshort)
    have htaken : ((archive rs).take k).length = k := by
      rw [List.length_take]
      omega
    have hsome : ((archive rs).take k).drop 0 ≠ [] := by
      intro hnil
      rw [List.drop_zero] at hnil
      rw [hnil] at htaken
      exact hzero htaken.symm
    obtain ⟨s, hleads, hover, haccepts⟩ := magic_run.cut ((archive rs).take k) 0 [] hsome
      ⟨arMagic.drop k, by rw [ne_eq, List.drop_eq_nil_iff]; omega, by
        rw [List.drop_zero, htake, List.take_append_drop]⟩
    refine ⟨s, hleads, hover, haccepts.trans ?_⟩
    rw [List.drop_zero, htaken]
    constructor
    · intro hneeded
      omega
    · rintro ⟨j, _, hj⟩
      omega
  · have htake : ((archive rs).take k).drop 0 = arMagic ++ (rs.flatMap Record.bytes).take (k - arMagic.length) := by
      unfold archive
      rw [List.drop_zero, List.take_append, List.take_of_length_le (Nat.le_of_not_lt hshort)]
    have hthen : ((archive rs).take k).drop (0 + arMagic.length) =
        (rs.flatMap Record.bytes).take (k - arMagic.length) := by
      rw [← List.drop_drop, htake, List.drop_left]
    obtain ⟨s, hleads, hover, haccepts⟩ := records_cut h (by omega) hthen
    refine ⟨s, (magic_run.whole _ _ 0 [] htake).trans hleads, hover, haccepts.trans ?_⟩
    constructor
    · exact fun hstop => ⟨_, hstop, by omega⟩
    · rintro ⟨j, hj, hsum⟩
      rwa [show k - arMagic.length = j by omega]

/-- Every feeding ends as the parser says where all is taken. -/
theorem ends_accepted {s : Place ArParser}
    (hleads : Place.Leads feed plain { taken := 0, entries := [], parser := new } s) (hover : plain.drop s.taken = [])
    (cuts : Nat → Nat × Nat) :
    ∃ e, Sansio.EndsAs (offered feed endOfStream) plain cuts new e ∧ e.output = s.entries ∧
      (e.outcome = none ↔ Accepts s.parser) := by
  obtain ⟨s', hleads', hnext, hends⟩ := (settles plain).ends endOfStream
  obtain rfl := hleads'.over hleads hnext (if_pos hover)
  obtain ⟨e, he, hlike⟩ := hends cuts
  have houtput := hlike.output
  have houtcome := hlike.outcome
  unfold Place.ending at houtput houtcome
  rw [if_pos hover] at houtput houtcome
  unfold Accepts
  refine ⟨e, he, ?_⟩
  cases hfinish : s'.parser.endOfStream with
  | error error =>
    rw [hfinish] at houtput houtcome
    refine ⟨houtput, iff_of_false (fun hnone => ?_) (fun haccepts => by cases haccepts)⟩
    rw [houtcome] at hnone
    cases hnone
  | ok _ =>
    rw [hfinish] at houtput houtcome
    exact ⟨houtput, iff_of_true houtcome rfl⟩

/-- Parsing undoes writing: symbol tables and files, written in either variant, are read as the files,
in order and with their data where the entries say, however the archive is cut into calls.  The end of
the stream is accepted before or after a record, or where only a byte of padding is missing. -/
theorem reads_written (d : Dialect) (symbols : List Record) (files : List File)
    (hsymbols : ∀ r ∈ symbols, r.IsSymbols) (hlimits : WithinLimits d files) (hnames : NoneAmbiguous d files) :
    (∃ entries, List.Forall₂ (Describes (archive (symbols ++ fileRecords d files))) files entries ∧
      ∀ cuts, ∃ e, Sansio.EndsAs (offered feed endOfStream) (archive (symbols ++ fileRecords d files)) cuts new e ∧
        e.outcome = none ∧ e.output = entries) ∧
    ∀ k ≤ (archive (symbols ++ fileRecords d files)).length, ∀ cuts, ∃ e,
      Sansio.EndsAs (offered feed endOfStream) ((archive (symbols ++ fileRecords d files)).take k) cuts new e ∧
        (e.outcome = none ↔ ∃ j ∈ Record.stops (symbols ++ fileRecords d files), arMagic.length + j = k) := by
  obtain ⟨table, hreadFiles⟩ := files_readAll hlimits hnames
  have hreads := (symbols_readAll hsymbols).append hreadFiles
  refine ⟨⟨Record.entriesFrom arMagic.length (symbols ++ fileRecords d files), ?_, fun cuts => ?_⟩, fun k hk cuts => ?_⟩
  · obtain ⟨front, rs, hsplit, hfront, hfiles⟩ := fileRecords_isFile d files
    have hall : symbols ++ fileRecords d files = (symbols ++ front) ++ rs := by rw [hsplit, List.append_assoc]
    have hnone : ∀ r ∈ symbols ++ front, r.path = none := by
      intro r hr
      rcases List.mem_append.mp hr with hr | hr
      · exact (hsymbols r hr).path
      · exact hfront r hr
    have hwritable : ∀ r ∈ rs, r.Writable := fun r hr => hreads.writable r (by
      rw [hall]
      exact List.mem_append_right _ hr)
    have hat : (archive (symbols ++ fileRecords d files)).drop
        (arMagic.length + ((symbols ++ front).flatMap Record.bytes).length) = rs.flatMap Record.bytes ++ [] := by
      unfold archive
      rw [hall, ← List.drop_drop, List.drop_left, @List.flatMap_append _ _ (symbols ++ front), List.drop_left,
        List.append_nil]
    have hdescribes := entriesFrom_describes hfiles hwritable hat
    rw [hall, entriesFrom_append, entriesFrom_none hnone, List.nil_append, ← hall]
    exact hdescribes
  · have hover : (archive (symbols ++ fileRecords d files)).drop
        (archive (symbols ++ fileRecords d files)).length = [] := List.drop_length
    obtain ⟨e, hends, houtput, houtcome⟩ := ends_accepted (archive_whole hreads) hover cuts
    exact ⟨e, hends, houtcome.mpr (atBoundary_accepts _ _), houtput⟩
  · obtain ⟨s, hleads, hover, haccepts⟩ := archive_cut hreads hk
    obtain ⟨e, hends, _, houtcome⟩ := ends_accepted hleads hover cuts
    exact ⟨e, hends, houtcome.trans haccepts⟩

/-- Nothing told but the size. -/
def blankStamp : Stamp :=
  { mtime := none
    uid := none
    gid := none
    mode := none
    mtime_lt := fun n hn => by cases hn
    uid_lt := fun n hn => by cases hn
    gid_lt := fun n hn => by cases hn
    mode_lt := fun n hn => by cases hn }

/-- A file with a name that a GNU header has no room for. -/
def longFile : File :=
  { path := "sixteen_letters_"
    name := ascii "sixteen_letters_"
    stamp := { blankStamp with mode := some 0o644, mode_lt := fun n hn => by obtain rfl := Option.some.inj hn; decide }
    data := [1, 2, 3]
    named := by decide
    nonempty := by decide
    noNul := by decide
    noNewline := by decide
    notSlash := by decide
    notInline := by decide
    notSymbols := by decide
    noSlash := by decide }

/-- A file whose name, written with a slash behind it, is that of a BSD name without a length. -/
def hashOne : File :=
  { path := "#1"
    name := [35, 49]
    stamp := blankStamp
    data := []
    named := by decide
    nonempty := by decide
    noNul := by decide
    noNewline := by decide
    notSlash := by decide
    notInline := by decide
    notSymbols := by decide
    noSlash := by decide }

/-- A file with a name of one letter. -/
def shortFile : File :=
  { path := "b"
    name := [98]
    stamp := blankStamp
    data := [9, 8]
    named := by decide
    nonempty := by decide
    noNul := by decide
    noNewline := by decide
    notSlash := by decide
    notInline := by decide
    notSymbols := by decide
    noSlash := by decide }

/-- A symbol table of no symbols. -/
def emptySymbols : Record :=
  { path := none, name := ascii "/", stamp := blankStamp, inlineName := [], data := [0, 0, 0, 0] }

theorem emptySymbols_isSymbols : emptySymbols.IsSymbols :=
  ⟨rfl, by decide, .inl ⟨rfl, List.mem_cons_self⟩⟩

/-- A symbol table, a long name by way of the table of names, and a short one. -/
theorem reads_written_both : (∃ entries,
    List.Forall₂ (Describes (archive ([emptySymbols] ++ fileRecords (.gnu blankStamp) [longFile, shortFile])))
        [longFile, shortFile] entries ∧
      ∀ cuts, ∃ e,
        Sansio.EndsAs (offered feed endOfStream)
            (archive ([emptySymbols] ++ fileRecords (.gnu blankStamp) [longFile, shortFile])) cuts new e ∧
          e.outcome = none ∧ e.output = entries) ∧
    ∀ k ≤ (archive ([emptySymbols] ++ fileRecords (.gnu blankStamp) [longFile, shortFile])).length, ∀ cuts, ∃ e,
      Sansio.EndsAs (offered feed endOfStream)
          ((archive ([emptySymbols] ++ fileRecords (.gnu blankStamp) [longFile, shortFile])).take k) cuts new e ∧
        (e.outcome = none ↔
          ∃ j ∈ Record.stops ([emptySymbols] ++ fileRecords (.gnu blankStamp) [longFile, shortFile]),
            arMagic.length + j = k) := by
  have hfiles : ∀ f ∈ [longFile, shortFile], f.data.length < 10 ^ 10 ∧ f.name ≠ ascii "#1" := by decide
  exact reads_written (.gnu blankStamp) [emptySymbols] [longFile, shortFile]
    (fun r hr => List.mem_singleton.mp hr ▸ emptySymbols_isSymbols)
    ⟨fun f hf => (hfiles f hf).1, by decide⟩ (fun f hf => (hfiles f hf).2)

/-- As the GNU variant writes it. -/
def hashOneRecord : Record :=
  { path := some hashOne.path, name := hashOne.name ++ ascii "/", stamp := blankStamp, inlineName := [], data := [] }

theorem hashOne_classify {r : Record} (hname : r.name = hashOne.name ++ ascii "/") (pos : Nat) : ∃ e,
    (atBoundary pos table).classify r.told = .error e := by
  have hform : r.told.name = [35, 49, 47] := by
    show r.name = _
    rw [hname, ascii_slash]
    rfl
  have hnumber : parseNameNumber (([35, 49, 47] : List Byte).drop 3) = none := by decide
  unfold classify
  rw [hform, ascii_table, ascii_slash, ascii_inline, if_neg (by decide), if_neg (by decide), if_pos (by decide)]
  simp only [hnumber, Option.filter_none]
  exact ⟨_, rfl⟩

/-- A header that is not of any member is refused. -/
theorem header_refused (pos : Nat) {r : Record} (rest : List Byte) (h : r.Writable)
    (hclass : ∀ pos, ∃ e, (atBoundary pos table).classify r.told = .error e) :
    ∃ e p, feed (atBoundary pos table) (r.header ++ rest) = (.error e, p) := by
  have hwants : pieces.wants (atBoundary pos table) = r.header.length := (Record.header_length h).symm
  obtain ⟨e, he⟩ := hclass (pos + Ar.headerSize)
  have hrefused : ({ atBoundary (pos + Ar.headerSize) table with headerBuf := [] } : ArParser).classify r.told =
      .error e := he
  have hcomplete : ∃ p, complete (atBoundary pos table) r.header = (.error e, p) := by
    rw [complete_buffered h]
    unfold headerComplete
    simp only [Record.parseHeader_header h, hrefused]
    exact ⟨_, rfl⟩
  obtain ⟨p, hcomplete⟩ := hcomplete
  have hne : r.header ++ rest ≠ [] := List.append_ne_nil_of_left_ne_nil (header_ne_nil h) rest
  have hfull := pieces.full (atBoundary pos table) (r.header ++ rest) trivial hne (by
    rw [hwants, List.length_append]
    exact Nat.le_add_right _ _)
  rw [hwants, List.take_left] at hfull
  exact ⟨e, p, hfull.trans (congrArg (answering _) hcomplete)⟩

/-- An archive is refused whose first record is of no member. -/
theorem archive_refused {r : Record} (h : r.Writable)
    (hclass : ∀ pos, ∃ e, (atBoundary pos none).classify r.told = .error e) (cuts : Nat → Nat × Nat) :
    ∃ e, Sansio.EndsAs (offered feed endOfStream) (archive (r :: rs)) cuts new e ∧ e.outcome ≠ none := by
  obtain ⟨rest, hrest⟩ : ∃ rest, (r :: rs).flatMap Record.bytes = r.header ++ rest := by
    rw [List.flatMap_cons]
    unfold Record.bytes
    rw [List.append_assoc]
    exact ⟨_, rfl⟩
  have hplain : (archive (r :: rs)).drop 0 = arMagic ++ (r.header ++ rest) := by
    rw [List.drop_zero, ← hrest]
    rfl
  -- the driver gets to the header, and no further
  have hleads := magic_run.whole (archive (r :: rs)) (r.header ++ rest) 0 [] hplain
  have hleft : (archive (r :: rs)).drop (0 + arMagic.length) = r.header ++ rest := by
    rw [← List.drop_drop, hplain, List.drop_left]
  have hne : r.header ++ rest ≠ [] := List.append_ne_nil_of_left_ne_nil (header_ne_nil h) rest
  obtain ⟨error, p, hanswer⟩ := header_refused arMagic.length rest h hclass
  have hover : Place.next feed (archive (r :: rs))
      { taken := 0 + arMagic.length, entries := [] ++ [], parser := atBoundary arMagic.length none } = none := by
    unfold Place.next
    simp only [hleft, if_neg hne, hanswer]
  obtain ⟨s, hleads', hover', hends⟩ := (settles (archive (r :: rs))).ends endOfStream
  obtain rfl := hleads'.over hleads hover' hover
  obtain ⟨e, he, hlike⟩ := hends cuts
  refine ⟨e, he, fun hnone => ?_⟩
  have houtcome := hlike.outcome
  unfold Place.ending at houtcome
  simp only [hleft, if_neg hne, hanswer, hnone] at houtcome
  cases houtcome

/-- Not every list of files comes out again: one whose name is `#1` is refused. -/
theorem hashOne_refused : ¬ ∀ (d : Dialect) (symbols : List Record) (files : List File),
    (∀ r ∈ symbols, r.IsSymbols) → WithinLimits d files → ∀ cuts, ∃ e,
      Sansio.EndsAs (offered feed endOfStream) (archive (symbols ++ fileRecords d files)) cuts new e ∧
        e.outcome = none := by
  intro hall
  obtain ⟨e, hends, hnone⟩ := hall (.gnu blankStamp) [] [hashOne] (fun r hr => by cases hr)
    ⟨fun f hf => by obtain rfl := List.mem_singleton.mp hf; decide, by decide⟩ fun _ => (0, 0)
  have hwritable : hashOneRecord.Writable :=
    { short := by decide
      trimmed := by decide
      fits := by decide }
  obtain ⟨e', hends', hrefused⟩ := archive_refused hwritable (hashOne_classify rfl) fun _ => (0, 0)
  have hsame : e = e' := hends.unique hends'
  rw [← hsame] at hrefused
  exact hrefused hnone

end ArParser
end Iluvatar
