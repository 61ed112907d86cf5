/-
What becomes of each member of a cpio archive: under which entry it is reported, and
where the members that are not reported yet are kept.

`CpioFile` is a member with its data.  `CpioLedger` pairs every reported entry with the
file it stands for and accounts for the deferred ones; hard-link resolution keeps it.
-/
import Iluvatar.Archive.CpioRuns

namespace Iluvatar

/-- A member with its data. -/
structure CpioFile where
  member : CpioMember
  data : List Byte
  deriving DecidableEq, Repr

/-- `bytes` are an archive from a header at offset `pos` on, holding these files, with `tail`
after the trailer's name; names and link targets keep to the parser's limit. -/
inductive CpioListing (format : CpioSubFormat) (tail : List Byte) :
    Nat → List Byte → List CpioFile → Prop where
  | trailer {pos : Nat} {header name : List Byte} {hdr : CpioHeader} :
      format.Heads header hdr → name.length = hdr.namesize → name ≠ [] → name.length ≤ maxNameSize →
      CpioParser.filenameOf name = trailerName →
      CpioListing format tail pos (header ++ (name ++ tail)) []
  | member {pos : Nat} {header name namePad data dataPad rest : List Byte} {hdr : CpioHeader}
      {files : List CpioFile} :
      format.Heads header hdr → name.length = hdr.namesize → name ≠ [] → name.length ≤ maxNameSize →
      CpioParser.filenameOf name ≠ trailerName →
      namePad.length = format.pad (format.headerLen + hdr.namesize) →
      data.length = hdr.filesize → (entryTypeFromMode hdr.mode = .symLink → data.length ≤ maxNameSize) →
      dataPad.length = format.pad hdr.filesize →
      CpioListing format tail
        (pos + header.length + name.length + namePad.length + data.length + dataPad.length) rest
        files →
      CpioListing format tail pos (header ++ (name ++ (namePad ++ (data ++ (dataPad ++ rest)))))
        (⟨CpioMember.declared hdr name (pos + header.length + name.length + namePad.length), data⟩ ::
          files)

/-- How a file of an archive of `files` may be reported. -/
inductive CpioFile.ReportedAs (files : List CpioFile) (f : CpioFile) : ArchiveEntry → Prop where
  /-- As its header declares it. -/
  | declared : f.member.bare = false → (f.member.entry.entryType ≠ .symLink ∨ f.data = []) →
      ReportedAs files f f.member.entry
  /-- A symbolic link, its data being the target. -/
  | symLink : f.member.entry.entryType = .symLink → f.data ≠ [] →
      ReportedAs files f
        { f.member.entry with size := 0, linkTarget := some (fromUtf8Lossy f.data) }
  /-- A hard link without data, another member of its group having it. -/
  | hardLink (path : String) : f.member.bare = true →
      ReportedAs files f (CpioParser.linkTo path f.member.entry)
  /-- A hard link of a group without data, as its header declares it. -/
  | orphan : CpioMember.orphan (files.map CpioFile.member) f.member = true →
      ReportedAs files f f.member.entry

/-- An entry and the file it reports. -/
abbrev CpioReport := ArchiveEntry × CpioFile

/-- The data of `inode` is what `report` carries. -/
structure CarriesInode (inode : InodeKey) (report : CpioReport) : Prop where
  regular : report.1.entryType = .regular
  data : 0 < report.1.size
  inode : report.2.member.inode = inode

/-- `link` is a hard link to an entry of `reports` with the data of its inode. -/
def LinksInto (reports : List CpioReport) (link : CpioReport) : Prop :=
  link.1.entryType = .hardLink → ∃ target ∈ reports,
    CarriesInode link.2.member.inode target ∧ link.1.linkTarget = some target.1.path

/-- Every hard link is one to an entry before it. -/
def LinksBack (reports : List CpioReport) : Prop :=
  ∀ earlier link later, reports = earlier ++ link :: later → LinksInto earlier link

theorem LinksInto.mono {reports more : List CpioReport} {link : CpioReport}
    (h : LinksInto reports link) : LinksInto (reports ++ more) link := by
  intro hlink
  obtain ⟨target, hmem, hcarries⟩ := h hlink
  exact ⟨target, List.mem_append_left more hmem, hcarries⟩

theorem LinksBack.append {reports more : List CpioReport} (h : LinksBack reports)
    (hmore : ∀ link ∈ more, LinksInto reports link) : LinksBack (reports ++ more) := by
  intro earlier link later hsplit
  rcases List.append_eq_append_iff.mp hsplit with ⟨as, rfl, htail⟩ | ⟨cs, hreports, htail⟩
  · refine (hmore link ?_).mono
    rw [htail]
    exact List.mem_append_right as (List.mem_cons_self ..)
  · cases cs with
    | nil =>
      rw [List.append_nil] at hreports
      rw [← hreports]
      refine hmore link ?_
      rw [List.nil_append] at htail
      rw [← htail]
      exact List.mem_cons_self ..
    | cons c cs =>
      obtain ⟨rfl, -⟩ := List.cons.inj htail
      exact h earlier link cs hreports

/-! ## Files withheld -/

/-- Files withheld, by inode. -/
abbrev HeldFiles := List (InodeKey × List CpioFile)

namespace HeldFiles

/-- The entries the parser keeps for them. -/
def links (held : HeldFiles) : DeferredLinks :=
  held.map fun group => (group.1, group.2.map fun f => f.member.entry)

def files (held : HeldFiles) : List CpioFile := held.flatMap (·.2)

/-- `P` holds of each file and the inode it is withheld under. -/
def All (P : InodeKey → CpioFile → Prop) (held : HeldFiles) : Prop :=
  ∀ group ∈ held, ∀ f ∈ group.2, P group.1 f

theorem links_flatten (held : HeldFiles) :
    held.links.flatten = held.files.map fun f => f.member.entry := by
  induction held with
  | nil => rfl
  | cons group held ih =>
    show (group.2.map fun f => f.member.entry) ++ DeferredLinks.flatten (links held) = _
    rw [ih]
    exact List.map_append.symm

theorem links_under (held : HeldFiles) (inode : InodeKey) :
    held.links.under inode =
      (files (held.filter fun group => group.1 = inode)).map fun f => f.member.entry := by
  rw [← links_flatten, DeferredLinks.under, links, List.filter_map]
  rfl

theorem links_without (held : HeldFiles) (inode : InodeKey) :
    held.links.without inode = links (held.filter fun group => group.1 ≠ inode) := by
  rw [DeferredLinks.without, links, List.filter_map]
  rfl

theorem files_filter (held : HeldFiles) (inode : InodeKey) :
    (files (held.filter fun group => group.1 = inode) ++
      files (held.filter fun group => group.1 ≠ inode)).Perm held.files := by
  have hsplit := List.filter_append_perm (fun group : InodeKey × List CpioFile => decide (group.1 = inode)) held
  have hflat := hsplit.flatMap_right (fun group => group.2)
  rw [List.flatMap_append] at hflat
  simpa [files] using hflat

/-- Withholding one file more. -/
theorem push {P : InodeKey → CpioFile → Prop} {held : HeldFiles} (h : held.All P) (f : CpioFile)
    (hf : P f.member.inode f) :
    ∃ held' : HeldFiles, held.links.push f.member.inode f.member.entry = held'.links ∧ held'.All P ∧
      held'.files.Perm (held.files ++ [f]) := by
  induction held with
  | nil =>
    refine ⟨[(f.member.inode, [f])], rfl, ?_, List.Perm.refl _⟩
    intro group hgroup g hg
    obtain rfl := List.mem_singleton.mp hgroup
    obtain rfl := List.mem_singleton.mp hg
    exact hf
  | cons group held ih =>
    have hhead := h group (List.mem_cons_self ..)
    have htail : All P held := fun g hg => h g (List.mem_cons_of_mem _ hg)
    have hlinks : links (group :: held) = (group.1, group.2.map fun f => f.member.entry) :: links held := rfl
    rw [hlinks, DeferredLinks.push]
    by_cases hsame : group.1 = f.member.inode
    · rw [if_pos hsame]
      refine ⟨(group.1, group.2 ++ [f]) :: held, ?_, ?_, ?_⟩
      · show _ = (group.1, (group.2 ++ [f]).map fun f => f.member.entry) :: links held
        rw [List.map_append]
        rfl
      · intro g hg
        rcases List.mem_cons.mp hg with rfl | hg
        · intro x hx
          rcases List.mem_append.mp hx with hx | hx
          · exact hhead x hx
          · obtain rfl := List.mem_singleton.mp hx
            rw [hsame]
            exact hf
        · exact htail g hg
      · show (group.2 ++ [f] ++ files held).Perm (group.2 ++ files held ++ [f])
        rw [List.append_assoc, List.append_assoc]
        exact List.Perm.append_left _ List.perm_append_comm
    · rw [if_neg hsame]
      by_cases hbefore : f.member.inode.before group.1 = true
      · rw [if_pos hbefore]
        refine ⟨(f.member.inode, [f]) :: group :: held, rfl, ?_, ?_⟩
        · intro g hg
          rcases List.mem_cons.mp hg with rfl | hg
          · intro x hx
            obtain rfl := List.mem_singleton.mp hx
            exact hf
          · exact h g hg
        · show ([f] ++ files (group :: held)).Perm (files (group :: held) ++ [f])
          exact List.perm_append_comm
      · rw [if_neg hbefore]
        obtain ⟨held', hpush, hall, hperm⟩ := ih htail
        refine ⟨group :: held', ?_, ?_, ?_⟩
        · rw [hpush]
          rfl
        · intro g hg
          rcases List.mem_cons.mp hg with rfl | hg
          · exact hhead
          · exact hall g hg
        · show (group.2 ++ files held').Perm (group.2 ++ files held ++ [f])
          rw [List.append_assoc]
          exact List.Perm.append_left _ hperm

end HeldFiles

/-! ## The ledger -/

/-- What makes a file stay withheld. -/
def Withheld (resolved : List (InodeKey × String)) (inode : InodeKey) (f : CpioFile) : Prop :=
  f.member.inode = inode ∧ f.member.bare = true ∧ resolved.lookup inode = none

/-- The `reports` made or due so far and the files withheld, of those `seen` in an archive
of `files`. -/
structure CpioLedger (files : List CpioFile) (p : CpioParser) (reports : List CpioReport)
    (held : HeldFiles) (seen : List CpioFile) : Prop where
  deferred : p.deferredLinks = held.links
  withheld : held.All (Withheld p.resolvedInodes)
  all : (reports.map Prod.snd ++ held.files).Perm seen
  reported : ∀ report ∈ reports, report.2.ReportedAs files report.1
  links : LinksBack reports
  resolved : ∀ inode path, p.resolvedInodes.lookup inode = some path →
    ∃ report ∈ reports, CarriesInode inode report ∧ report.1.path = path
  bearing : ∀ f ∈ seen, f.member.bears = true → (p.resolvedInodes.lookup f.member.inode).isSome = true

namespace CpioLedger

variable {files seen : List CpioFile} {p p' : CpioParser} {reports : List CpioReport}
  {held : HeldFiles}

theorem new : CpioLedger files CpioParser.new [] [] [] where
  deferred := rfl
  withheld := fun _ hgroup => absurd hgroup (List.not_mem_nil)
  all := List.Perm.refl _
  reported := fun _ hreport => absurd hreport (List.not_mem_nil)
  links := by
    intro earlier link later hsplit
    exact absurd hsplit (by simp)
  resolved := fun _ _ hlookup => absurd hlookup (by simp [CpioParser.new])
  bearing := fun _ hf => absurd hf (List.not_mem_nil)

/-- Only the lists of inodes matter. -/
theorem same (h : CpioLedger files p reports held seen) (hdeferred : p'.deferredLinks = p.deferredLinks)
    (hresolved : p'.resolvedInodes = p.resolvedInodes) : CpioLedger files p' reports held seen where
  deferred := hdeferred.trans h.deferred
  withheld := by rw [hresolved]; exact h.withheld
  all := h.all
  reported := h.reported
  links := h.links
  resolved := by rw [hresolved]; exact h.resolved
  bearing := by rw [hresolved]; exact h.bearing

/-- A file reported at once. -/
theorem report (h : CpioLedger files p reports held seen) {f : CpioFile} {e : ArchiveEntry}
    (hreported : f.ReportedAs files e) (hbears : f.member.bears = false)
    (hlinks : LinksInto reports (e, f)) :
    CpioLedger files p (reports ++ [(e, f)]) held (seen ++ [f]) where
  deferred := h.deferred
  withheld := h.withheld
  all := by
    rw [List.map_append, List.append_assoc]
    have hmove : (reports.map Prod.snd ++ ([f] ++ held.files)).Perm
        (reports.map Prod.snd ++ (held.files ++ [f])) :=
      List.Perm.append_left _ List.perm_append_comm
    refine hmove.trans ?_
    rw [← List.append_assoc]
    exact List.Perm.append_right _ h.all
  reported := by
    intro report hreport
    rcases List.mem_append.mp hreport with hreport | hreport
    · exact h.reported report hreport
    · obtain rfl := List.mem_singleton.mp hreport
      exact hreported
  links := h.links.append fun link hlink => by
    obtain rfl := List.mem_singleton.mp hlink
    exact hlinks
  resolved := by
    intro inode path hlookup
    obtain ⟨report, hreport, hcarries⟩ := h.resolved inode path hlookup
    exact ⟨report, List.mem_append_left _ hreport, hcarries⟩
  bearing := by
    intro g hg hgbears
    rcases List.mem_append.mp hg with hg | hg
    · exact h.bearing g hg hgbears
    · obtain rfl := List.mem_singleton.mp hg
      rw [hbears] at hgbears
      exact absurd hgbears (by simp)

/-- A file whose header says all. -/
theorem plain (h : CpioLedger files p reports held seen) {f : CpioFile}
    (hbare : f.member.bare = false) (hbears : f.member.bears = false)
    (htype : f.member.entry.entryType ≠ .hardLink)
    (hsymlink : f.member.entry.entryType ≠ .symLink ∨ f.data = []) :
    CpioLedger files p (reports ++ [(f.member.entry, f)]) held (seen ++ [f]) :=
  h.report (.declared hbare hsymlink) hbears fun hlink => absurd hlink htype

/-- The data of a group comes in: the files withheld for it are due as links. -/
theorem bears (h : CpioLedger files p reports held seen) {f : CpioFile}
    (hregular : f.member.entry.entryType = .regular) (hlinks : 1 < f.member.nlink)
    (hdata : 0 < f.member.entry.size) :
    ∃ due : List CpioReport,
      (p.deferredLinks.under f.member.inode).map (CpioParser.linkTo f.member.entry.path) =
        due.map Prod.fst ∧
      CpioLedger files { p with
          resolvedInodes := (f.member.inode, f.member.entry.path) :: p.resolvedInodes
          deferredLinks := p.deferredLinks.without f.member.inode }
        (reports ++ (f.member.entry, f) :: due)
        (held.filter fun group => group.1 ≠ f.member.inode) (seen ++ [f]) := by
  refine ⟨(HeldFiles.files (held.filter fun group => group.1 = f.member.inode)).map fun g =>
    (CpioParser.linkTo f.member.entry.path g.member.entry, g), ?_, ?_⟩
  · rw [h.deferred, HeldFiles.links_under, List.map_map, List.map_map]
    rfl
  have hdue : ∀ g ∈ HeldFiles.files (held.filter fun group => group.1 = f.member.inode),
      g.member.inode = f.member.inode ∧ g.member.bare = true := by
    intro g hg
    obtain ⟨group, hgroup, hmem⟩ := List.mem_flatMap.mp hg
    obtain ⟨hgroup, hkey⟩ := List.mem_filter.mp hgroup
    obtain ⟨hinode, hbare, _⟩ := h.withheld group hgroup g hmem
    exact ⟨hinode.trans (of_decide_eq_true hkey), hbare⟩
  have hcarries : CarriesInode f.member.inode (f.member.entry, f) := ⟨hregular, hdata, rfl⟩
  have hbare : f.member.bare = false := by
    simp only [CpioMember.bare, decide_eq_false_iff_not]
    omega
  have hfirst : LinksBack (reports ++ [(f.member.entry, f)]) :=
    h.links.append fun link hlink => by
      obtain rfl := List.mem_singleton.mp hlink
      intro hhard
      exact absurd (hregular.symm.trans hhard) (by simp)
  rw [show ∀ due : List CpioReport, reports ++ (f.member.entry, f) :: due =
    reports ++ [(f.member.entry, f)] ++ due from fun due => by simp]
  constructor
  · show p.deferredLinks.without f.member.inode = _
    rw [h.deferred, HeldFiles.links_without]
  · intro group hgroup g hg
    obtain ⟨hgroup, hkey⟩ := List.mem_filter.mp hgroup
    obtain ⟨hinode, hgbare, hnone⟩ := h.withheld group hgroup g hg
    refine ⟨hinode, hgbare, ?_⟩
    have hother : (group.1 == f.member.inode) = false := by
      simpa using of_decide_eq_true hkey
    simpa [List.lookup_cons, hother] using hnone
  · have hgroups := HeldFiles.files_filter held f.member.inode
    have hsnd : ∀ gs : List CpioFile, (gs.map fun g =>
        (CpioParser.linkTo f.member.entry.path g.member.entry, g)).map Prod.snd = gs := by
      intro gs
      rw [List.map_map]
      exact List.map_id gs
    rw [List.map_append, List.map_append, hsnd, List.append_assoc]
    refine (List.Perm.append_left _ hgroups).trans ?_
    show (reports.map Prod.snd ++ [f] ++ held.files).Perm (seen ++ [f])
    rw [List.append_assoc]
    refine (List.Perm.append_left _ List.perm_append_comm).trans ?_
    rw [← List.append_assoc]
    exact List.Perm.append_right _ h.all
  · intro report hreport
    rcases List.mem_append.mp hreport with hreport | hreport
    · rcases List.mem_append.mp hreport with hreport | hreport
      · exact h.reported report hreport
      · obtain rfl := List.mem_singleton.mp hreport
        exact .declared hbare (.inl (by rw [hregular]; simp))
    · obtain ⟨g, hg, rfl⟩ := List.mem_map.mp hreport
      exact .hardLink _ (hdue g hg).2
  · refine hfirst.append fun link hlink => ?_
    obtain ⟨g, hg, rfl⟩ := List.mem_map.mp hlink
    intro _
    refine ⟨(f.member.entry, f), by simp, ?_, rfl⟩
    show CarriesInode g.member.inode _
    rw [(hdue g hg).1]
    exact hcarries
  · intro inode path hlookup
    by_cases hsame : inode = f.member.inode
    · subst hsame
      simp only [List.lookup_cons, beq_self_eq_true, Option.some.injEq] at hlookup
      exact ⟨(f.member.entry, f), by simp, hcarries, hlookup⟩
    · have hother : (inode == f.member.inode) = false := by simpa using hsame
      simp only [List.lookup_cons, hother] at hlookup
      obtain ⟨report, hreport, hfound⟩ := h.resolved inode path hlookup
      exact ⟨report, List.mem_append_left _ (List.mem_append_left _ hreport), hfound⟩
  · intro g hg hgbears
    by_cases hsame : g.member.inode = f.member.inode
    · simp [hsame]
    · have hother : (g.member.inode == f.member.inode) = false := by simpa using hsame
      simp only [List.lookup_cons, hother]
      rcases List.mem_append.mp hg with hg | hg
      · exact h.bearing g hg hgbears
      · obtain rfl := List.mem_singleton.mp hg
        exact absurd rfl hsame

/-- A hard link whose data has not come in is withheld. -/
theorem defers (h : CpioLedger files p reports held seen) {f : CpioFile}
    (hbare : f.member.bare = true) (hnone : p.resolvedInodes.lookup f.member.inode = none) :
    ∃ held', CpioLedger files
      { p with deferredLinks := p.deferredLinks.push f.member.inode f.member.entry } reports held'
      (seen ++ [f]) := by
  have hwithheld : Withheld p.resolvedInodes f.member.inode f := ⟨rfl, hbare, hnone⟩
  obtain ⟨held', hpush, hall, hperm⟩ := HeldFiles.push h.withheld f hwithheld
  have hbears : f.member.bears = false := by
    simp only [CpioMember.bare, decide_eq_true_eq] at hbare
    simp only [CpioMember.bears, decide_eq_false_iff_not]
    omega
  refine ⟨held', ⟨?_, hall, ?_, h.reported, h.links, h.resolved, ?_⟩⟩
  · show p.deferredLinks.push f.member.inode f.member.entry = _
    rw [h.deferred, hpush]
  · refine (List.Perm.append_left _ hperm).trans ?_
    rw [← List.append_assoc]
    exact List.Perm.append_right _ h.all
  · intro g hg hgbears
    rcases List.mem_append.mp hg with hg | hg
    · exact h.bearing g hg hgbears
    · obtain rfl := List.mem_singleton.mp hg
      rw [hbears] at hgbears
      exact absurd hgbears (by simp)

/-- Hard-link resolution keeps the ledger: it reports what it emits and what it makes pending. -/
theorem apply (h : CpioLedger files p reports held seen) {f : CpioFile}
    (hpending : p.pending = []) (htype : f.member.entry.entryType ≠ .hardLink)
    (hsymlink : f.member.entry.entryType ≠ .symLink ∨ f.data = []) :
    ∃ due held', CpioLedger files
        (p.applyHardlinkPolicy f.member.entry f.member.inode f.member.nlink).2 (reports ++ due) held'
        (seen ++ [f]) ∧
      (p.applyHardlinkPolicy f.member.entry f.member.inode f.member.nlink).1.toList ++
        (p.applyHardlinkPolicy f.member.entry f.member.inode f.member.nlink).2.pending =
        due.map Prod.fst := by
  unfold CpioParser.applyHardlinkPolicy
  by_cases hplain : f.member.entry.entryType ≠ .regular ∨ f.member.nlink ≤ 1
  · rw [if_pos hplain]
    have hnot : ¬ (f.member.entry.entryType = .regular ∧ 1 < f.member.nlink) := by
      rintro ⟨hregular, hmany⟩
      rcases hplain with hother | hfew
      · exact hother hregular
      · omega
    have hbears : f.member.bears = false := by
      simp only [CpioMember.bears, decide_eq_false_iff_not]
      exact fun hall => hnot ⟨hall.1, hall.2.1⟩
    have hbare : f.member.bare = false := by
      simp only [CpioMember.bare, decide_eq_false_iff_not]
      exact fun hall => hnot ⟨hall.1, hall.2.1⟩
    refine ⟨[(f.member.entry, f)], held, h.plain hbare hbears htype hsymlink, ?_⟩
    simp [hpending]
  · rw [if_neg hplain]
    have hregular : f.member.entry.entryType = .regular := by
      by_contra hother
      exact hplain (.inl hother)
    have hmany : 1 < f.member.nlink := by
      by_contra hfew
      exact hplain (.inr (by omega))
    by_cases hdata : 0 < f.member.entry.size
    · rw [if_pos hdata]
      obtain ⟨due, hdue, hledger⟩ := h.bears hregular hmany hdata
      refine ⟨(f.member.entry, f) :: due, _, hledger.same rfl rfl, ?_⟩
      simp [hpending, hdue]
    · rw [if_neg hdata]
      have hbare : f.member.bare = true := by
        simp only [CpioMember.bare, decide_eq_true_eq]
        exact ⟨hregular, hmany, by omega⟩
      cases hlookup : p.resolvedInodes.lookup f.member.inode with
      | some path =>
        obtain ⟨target, htarget, hcarries, hpath⟩ := h.resolved _ path hlookup
        have hbears : f.member.bears = false := by
          simp only [CpioMember.bears, decide_eq_false_iff_not]
          exact fun hall => hdata hall.2.2
        refine ⟨[(CpioParser.linkTo path f.member.entry, f)], held,
          h.report (.hardLink path hbare) hbears fun _ => ⟨target, htarget, hcarries, ?_⟩, ?_⟩
        · rw [hpath]
          rfl
        · simp [hpending]
      | none =>
        obtain ⟨held', hledger⟩ := h.defers hbare hlookup
        refine ⟨[], held', ?_, ?_⟩
        · rw [List.append_nil]
          exact hledger
        · simp [hpending]

/-- At the trailer the files withheld are due as their headers declare them. -/
theorem release (h : CpioLedger files p reports held files) :
    ∃ due : List CpioReport, p.deferredLinks.flatten = due.map Prod.fst ∧
      ((reports ++ due).map Prod.snd).Perm files ∧
      (∀ report ∈ reports ++ due, report.2.ReportedAs files report.1) ∧ LinksBack (reports ++ due) := by
  refine ⟨held.files.map fun f => (f.member.entry, f), ?_, ?_, ?_, ?_⟩
  · rw [h.deferred, HeldFiles.links_flatten, List.map_map]
    rfl
  · have hsnd : (held.files.map fun f => (f.member.entry, f)).map Prod.snd = held.files := by
      rw [List.map_map]
      exact List.map_id _
    rw [List.map_append, hsnd]
    exact h.all
  · intro report hreport
    rcases List.mem_append.mp hreport with hreport | hreport
    · exact h.reported report hreport
    · obtain ⟨f, hf, rfl⟩ := List.mem_map.mp hreport
      obtain ⟨group, hgroup, hmem⟩ := List.mem_flatMap.mp hf
      obtain ⟨hinode, hbare, hnone⟩ := h.withheld group hgroup f hmem
      refine .orphan ?_
      rw [CpioMember.orphan, hbare, Bool.true_and, List.all_eq_true]
      intro other hother
      obtain ⟨g, hg, rfl⟩ := List.mem_map.mp hother
      by_contra hgroup'
      simp only [Bool.not_eq_true, Bool.not_eq_false', Bool.and_eq_true, beq_iff_eq] at hgroup'
      have hsome := h.bearing g hg hgroup'.1
      rw [hgroup'.2, hinode, hnone] at hsome
      exact absurd hsome (by simp)
  · refine h.links.append fun link hlink => ?_
    obtain ⟨f, hf, rfl⟩ := List.mem_map.mp hlink
    obtain ⟨group, hgroup, hmem⟩ := List.mem_flatMap.mp hf
    obtain ⟨_, hbare, _⟩ := h.withheld group hgroup f hmem
    simp only [CpioMember.bare, decide_eq_true_eq] at hbare
    intro hhard
    exact absurd (hbare.1.symm.trans hhard) (by simp)

end CpioLedger
end Iluvatar
