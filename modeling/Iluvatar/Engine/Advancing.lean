/-
The parsers of the engine advance.

A tar or ar parser takes no bytes only to get past a piece that is empty.  A cpio parser also
hands out the links it kept back without taking any, but it kept each of them back with a
header of its own.
-/
import Iluvatar.Engine.Cuts
import Iluvatar.Engine.Ends
import Iluvatar.Archive.ArRuns
import Iluvatar.Archive.CpioFormat
import Iluvatar.Archive.TarRuns

namespace Iluvatar

open Sansio

namespace CpioParser

variable {p p' : CpioParser} {n : Nat} {event : ArchiveEvent}

/-- The entries the parser has yet to hand out. -/
def backlog (p : CpioParser) : Nat := p.pending.length + p.deferredLinks.flatten.length

/-- Whether an empty piece comes next. -/
def atEmpty (p : CpioParser) : Nat :=
  match p.state with
  | .readingFilename _ remaining _ | .skippingNamePad _ remaining _ _ | .readingLinkTarget _ remaining _ =>
    if remaining = 0 then 1 else 0
  | _ => 0

theorem atEmpty_le (p : CpioParser) : p.atEmpty ≤ 1 := by
  unfold atEmpty
  split
  · split <;> omega
  · split <;> omega
  · split <;> omega
  · omega

/-- A member is handed out, or it is kept back. -/
theorem applyHardlinkPolicy_backlog (p : CpioParser) (entry : ArchiveEntry) (inode : InodeKey) (nlink : Nat) :
    (p.applyHardlinkPolicy entry inode nlink).2.state = p.state ∧
      (p.applyHardlinkPolicy entry inode nlink).2.backlog ≤ p.backlog + 1 ∧
      ((p.applyHardlinkPolicy entry inode nlink).1 ≠ none →
        (p.applyHardlinkPolicy entry inode nlink).2.backlog ≤ p.backlog) := by
  unfold applyHardlinkPolicy
  split
  · exact ⟨rfl, Nat.le_succ _, fun _ => Nat.le_refl _⟩
  · split
    · have hsplit := List.Perm.length_eq (p.deferredLinks.under_without inode)
      have hsame : (p.pending ++ (p.deferredLinks.under inode).map (linkTo entry.path)).length +
          (p.deferredLinks.without inode).flatten.length = p.backlog := by
        rw [List.length_append] at hsplit
        rw [List.length_append, List.length_map, backlog]
        omega
      exact ⟨rfl, by simp only [backlog] at hsame ⊢; omega, fun _ => Nat.le_of_eq hsame⟩
    · split
      · exact ⟨rfl, Nat.le_succ _, fun _ => Nat.le_refl _⟩
      · refine ⟨rfl, ?_, fun h => absurd rfl h⟩
        have hpush := List.Perm.length_eq (p.deferredLinks.push_flatten inode entry)
        rw [List.length_append, List.length_singleton] at hpush
        simp only [backlog]
        omega

/-- What a call does to the entries still to be handed out. -/
structure Owes (p : CpioParser) (event : ArchiveEvent) (p' : CpioParser) : Prop where
  atEmpty : p'.atEmpty = 0
  most : p'.backlog ≤ p.backlog + 1
  entry : event ≠ .needData → p'.backlog ≤ p.backlog

theorem transitionToData_owes {skip : Nat} {entry : ArchiveEntry} {inode : InodeKey} {nlink : Nat}
    (h : p.transitionToData skip entry inode nlink = (.ok (n, event), p')) : n = skip ∧ Owes p event p' := by
  have hresolved : ∀ (state : CpioState) (e : ArchiveEntry),
      ({ p with state } : CpioParser).atEmpty = 0 →
      ((.ok (skip, eventOf (({ p with state } : CpioParser).applyHardlinkPolicy e inode nlink).1),
        (({ p with state } : CpioParser).applyHardlinkPolicy e inode nlink).2) : Answer) = (.ok (n, event), p') →
      n = skip ∧ Owes p event p' := by
    intro state e hempty hanswer
    obtain ⟨hsame, hmost, hentry⟩ := applyHardlinkPolicy_backlog { p with state } e inode nlink
    obtain ⟨hok, rfl⟩ := Prod.mk.inj hanswer
    obtain ⟨rfl, rfl⟩ := Prod.mk.inj (Except.ok.inj hok)
    refine ⟨rfl, ?_, hmost, fun hevent => hentry fun hnone => hevent (by rw [hnone]; rfl)⟩
    unfold atEmpty at hempty ⊢
    rw [hsame]
    exact hempty
  unfold transitionToData at h
  simp only at h
  split at h
  · next hlink =>
    split at h
    · cases h
    · obtain ⟨hok, rfl⟩ := Prod.mk.inj h
      obtain ⟨rfl, rfl⟩ := Prod.mk.inj (Except.ok.inj hok)
      exact ⟨rfl, if_neg (by have := hlink.2; omega), Nat.le_succ _, fun _ => Nat.le_refl _⟩
  · split at h
    · exact hresolved _ _ rfl h
    · exact hresolved _ _ rfl h

theorem filenameComplete_owes {take : Nat} {hdr : CpioHeader} {name : String} (hend : event ≠ .endOfArchive)
    (h : p.filenameComplete take hdr name = (.ok (n, event), p')) : n = take ∧ Owes p event p' := by
  unfold filenameComplete at h
  split at h
  · simp only at h
    split at h
    · next entry pending hpending =>
      obtain ⟨hok, rfl⟩ := Prod.mk.inj h
      obtain ⟨rfl, rfl⟩ := Prod.mk.inj (Except.ok.inj hok)
      have hlen := congrArg List.length hpending
      rw [List.length_append, List.length_cons] at hlen
      have hless : pending.length + (DeferredLinks.flatten []).length ≤ p.backlog := by
        rw [backlog]
        simp only [DeferredLinks.flatten, List.flatMap_nil, List.length_nil]
        unfold DeferredLinks.flatten at hlen
        omega
      exact ⟨rfl, rfl, Nat.le_succ_of_le hless, fun _ => hless⟩
    · obtain ⟨hok, _⟩ := Prod.mk.inj h
      exact absurd (Prod.mk.inj (Except.ok.inj hok)).2.symm hend
  · simp only at h
    split at h
    · next hpad =>
      obtain ⟨hok, rfl⟩ := Prod.mk.inj h
      obtain ⟨rfl, rfl⟩ := Prod.mk.inj (Except.ok.inj hok)
      exact ⟨rfl, if_neg (by omega), Nat.le_succ _, fun _ => Nat.le_refl _⟩
    · exact transitionToData_owes h

/-- A header hands out nothing and keeps nothing back. -/
theorem feedHeader_backlog {data : List Byte} (h : p.feedHeader data = (.ok (n, event), p')) :
    event = .needData ∧ p'.backlog = p.backlog := by
  have hprocess : ∀ {q : CpioParser} {consumed : Nat}, q.backlog = p.backlog →
      q.processHeader consumed = (.ok (n, event), p') → event = .needData ∧ p'.backlog = p.backlog := by
    intro q consumed hq hanswer
    unfold processHeader at hanswer
    simp only at hanswer
    split at hanswer
    · cases hanswer
    · split at hanswer
      · cases hanswer
      · split at hanswer
        · cases hanswer
        · obtain ⟨hok, rfl⟩ := Prod.mk.inj hanswer
          obtain ⟨rfl, rfl⟩ := Prod.mk.inj (Except.ok.inj hok)
          exact ⟨rfl, hq⟩
  have hfill : ∀ {q : CpioParser} {consumed : Nat}, q.backlog = p.backlog →
      q.fillHeader consumed data = (.ok (n, event), p') → event = .needData ∧ p'.backlog = p.backlog := by
    intro q consumed hq hanswer
    unfold fillHeader at hanswer
    simp only at hanswer
    split at hanswer
    · obtain ⟨hok, rfl⟩ := Prod.mk.inj hanswer
      obtain ⟨rfl, rfl⟩ := Prod.mk.inj (Except.ok.inj hok)
      exact ⟨rfl, hq⟩
    · refine hprocess ?_ hanswer
      exact hq
  unfold feedHeader at h
  split at h
  · obtain ⟨hok, rfl⟩ := Prod.mk.inj h
    obtain ⟨rfl, rfl⟩ := Prod.mk.inj (Except.ok.inj hok)
    exact ⟨rfl, rfl⟩
  · split at h
    · exact hfill rfl h
    · simp only at h
      split at h
      · obtain ⟨hok, rfl⟩ := Prod.mk.inj h
        obtain ⟨rfl, rfl⟩ := Prod.mk.inj (Except.ok.inj hok)
        exact ⟨rfl, rfl⟩
      · split at h
        · cases h
        · refine hfill ?_ h
          rfl

theorem feedSkip_backlog {left : Nat → CpioState} {remaining : Nat} {data : List Byte}
    (h : p.feedSkip left remaining data = (.ok (n, event), p')) : event = .needData ∧ p'.backlog = p.backlog := by
  unfold feedSkip at h
  split at h
  · obtain ⟨hok, rfl⟩ := Prod.mk.inj h
    obtain ⟨rfl, rfl⟩ := Prod.mk.inj (Except.ok.inj hok)
    exact ⟨rfl, rfl⟩
  · obtain ⟨hok, rfl⟩ := Prod.mk.inj h
    obtain ⟨rfl, rfl⟩ := Prod.mk.inj (Except.ok.inj hok)
    exact ⟨rfl, rfl⟩

/-- A call that takes nothing and is not the last has an entry less to hand out, or is past an
empty piece. -/
theorem advance {data : List Byte} (hne : data ≠ []) (h : p.feed data = (.ok (n, event), p'))
    (hend : event ≠ .endOfArchive) (htakes : event = .needData → 0 < n) :
    p'.backlog + p'.atEmpty < p.backlog + p.atEmpty + 3 * n := by
  have hone := p'.atEmpty_le
  have hlen := List.length_pos_iff.mpr hne
  have hempty : data.isEmpty = false := by simpa using hne
  -- a call that is not complete, or hands out nothing
  have hkept : event = .needData → p'.backlog ≤ p.backlog + 1 →
      p'.backlog + p'.atEmpty < p.backlog + p.atEmpty + 3 * n := by
    intro hevent hmost
    have := htakes hevent
    omega
  -- a piece of `remaining` bytes that is complete
  have hwhole : ∀ {q : CpioParser} {remaining : Nat}, p.atEmpty = (if remaining = 0 then 1 else 0) →
      q.backlog = p.backlog → n = min data.length remaining → Owes q event p' →
      p'.backlog + p'.atEmpty < p.backlog + p.atEmpty + 3 * n := by
    intro q remaining hp hq hn howes
    have hmost := howes.most
    have hnone := howes.atEmpty
    by_cases hzero : remaining = 0
    · rw [if_pos hzero] at hp
      by_cases hevent : event = .needData
      · have := htakes hevent
        omega
      · have := howes.entry hevent
        omega
    · rw [if_neg hzero] at hp
      omega
  unfold feed at h
  split at h
  · next entry pending hpending =>
    obtain ⟨hok, rfl⟩ := Prod.mk.inj h
    obtain ⟨rfl, rfl⟩ := Prod.mk.inj (Except.ok.inj hok)
    have hsame : ({ p with pending } : CpioParser).atEmpty = p.atEmpty := rfl
    have hmore : ({ p with pending } : CpioParser).backlog + 1 = p.backlog := by
      simp only [backlog, hpending, List.length_cons]
      omega
    omega
  · split at h
    · obtain ⟨hevent, hsame⟩ := feedHeader_backlog h
      exact hkept hevent (by omega)
    · next hdr remaining buf hstate =>
      have hp : p.atEmpty = (if remaining = 0 then 1 else 0) := by
        unfold atEmpty
        rw [hstate]
      unfold feedFilename at h
      simp only [hempty, Bool.false_eq_true, if_false] at h
      split at h
      · obtain ⟨hok, rfl⟩ := Prod.mk.inj h
        obtain ⟨rfl, rfl⟩ := Prod.mk.inj (Except.ok.inj hok)
        exact hkept rfl (Nat.le_succ _)
      · obtain ⟨hn, howes⟩ := filenameComplete_owes hend h
        exact hwhole hp (by rfl) hn howes
    · next entry remaining inode nlink hstate =>
      have hp : p.atEmpty = (if remaining = 0 then 1 else 0) := by
        unfold atEmpty
        rw [hstate]
      unfold feedSkipNamePad at h
      simp only [hempty, Bool.false_eq_true, if_false] at h
      split at h
      · obtain ⟨hok, rfl⟩ := Prod.mk.inj h
        obtain ⟨rfl, rfl⟩ := Prod.mk.inj (Except.ok.inj hok)
        exact hkept rfl (Nat.le_succ _)
      · obtain ⟨hn, howes⟩ := transitionToData_owes h
        exact hwhole hp (by rfl) hn howes
    · next entry remaining buf hstate =>
      have hp : p.atEmpty = (if remaining = 0 then 1 else 0) := by
        unfold atEmpty
        rw [hstate]
      unfold feedLinkTarget at h
      simp only [hempty, Bool.false_eq_true, if_false] at h
      split at h
      · obtain ⟨hok, rfl⟩ := Prod.mk.inj h
        obtain ⟨rfl, rfl⟩ := Prod.mk.inj (Except.ok.inj hok)
        exact hkept rfl (Nat.le_succ _)
      · obtain ⟨hok, rfl⟩ := Prod.mk.inj h
        obtain ⟨rfl, rfl⟩ := Prod.mk.inj (Except.ok.inj hok)
        refine hwhole (q := p) hp rfl rfl ⟨?_, Nat.le_succ _, fun _ => Nat.le_refl _⟩
        unfold atEmpty
        simp only
        split
        · next hcut =>
          split at hcut <;> cases hcut
        · next hcut =>
          split at hcut <;> cases hcut
        · next hcut =>
          split at hcut <;> cases hcut
        · rfl
    · obtain ⟨hevent, hsame⟩ := feedSkip_backlog h
      exact hkept hevent (by omega)
    · obtain ⟨hevent, hsame⟩ := feedSkip_backlog h
      exact hkept hevent (by omega)
    · obtain ⟨hok, _⟩ := Prod.mk.inj h
      exact absurd (Prod.mk.inj (Except.ok.inj hok)).2.symm hend

end CpioParser

namespace TarParser

variable {p p' : TarParser} {piece : List Byte} {n : Nat} {event : ArchiveEvent}

/-- Whether there is no room left in the header block. -/
def overfull (p : TarParser) : Nat := if Tar.blockSize ≤ p.headerBuf.length then 1 else 0

theorem overfull_le (p : TarParser) : p.overfull ≤ 1 := by
  unfold overfull
  split <;> omega

/-- An entry comes of a header block. -/
theorem complete_entry {entry : ArchiveEntry} (h : p.complete piece = (.ok (.entry entry), p')) :
    p'.headerBuf = [] ∧ p.wants = Tar.blockSize - p.headerBuf.length := by
  have hheader : ∀ {q : TarParser} {block : List Byte}, q.headerBuf = [] →
      lift (q.processHeader block) = (.ok (.entry entry), p') → p'.headerBuf = [] := by
    intro q block hq hanswer
    cases hprocess : q.processHeader block with
    | mk answer q' =>
      rw [hprocess] at hanswer
      cases answer with
      | error e => cases hanswer
      | ok event =>
        obtain ⟨_, rfl⟩ := Prod.mk.inj hanswer
        obtain ⟨_, _, ⟨_, hskips⟩ | ⟨_, hskips⟩⟩ := processHeader_cases hprocess
        · exact hskips.headerBuf.trans hq
        · exact hskips.headerBuf.trans hq
  unfold complete at h
  unfold wants
  cases hstate : p.state with
  | readingHeader =>
    simp only [hstate] at h ⊢
    unfold headerComplete at h
    split at h
    · cases h
    · exact ⟨hheader rfl h, trivial⟩
  | oneZeroBlock =>
    simp only [hstate] at h ⊢
    unfold secondComplete at h
    split at h
    · cases h
    · exact ⟨hheader rfl h, trivial⟩
  | skippingData remaining =>
    simp only [hstate] at h
    cases h
  | readingPaxData remaining size buf =>
    simp only [hstate] at h
    split at h <;> cases h
  | readingGnuLong remaining size buf isLink =>
    simp only [hstate] at h
    cases h
  | ended =>
    simp only [hstate] at h
    cases h

theorem advance (hne : piece ≠ []) (h : p.feed piece = (.ok (n, event), p')) (hend : event ≠ .endOfArchive)
    (htakes : event = .needData → 0 < n) : p'.overfull < p.overfull + 3 * n := by
  have hone := p'.overfull_le
  by_cases hzero : n = 0
  · by_cases hshort : piece.length < p.wants
    · rw [pieces.short p piece trivial hne hshort] at h
      have hlen := (Prod.mk.inj (Except.ok.inj (Prod.mk.inj h).1)).1
      have := List.length_pos_iff.mpr hne
      omega
    · rw [pieces.full p piece trivial hne (Nat.le_of_not_lt hshort)] at h
      have hwants : n = p.wants := answering_ok h
      have hdone := answering_done h
      cases event with
      | needData => exact absurd (htakes rfl) (by omega)
      | endOfArchive => exact absurd rfl hend
      | entry entry =>
        obtain ⟨hbuf, hblock⟩ := complete_entry hdone
        have hfull : p.overfull = 1 := if_pos (by omega)
        have hnone : p'.overfull = 0 := if_neg (by rw [hbuf]; decide)
        omega
  · omega

end TarParser

namespace ArParser

variable {p p' : ArParser} {piece : List Byte} {n : Nat} {event : ArchiveEvent}

theorem idle_le (p : ArParser) : idle p ≤ 1 := by
  unfold idle
  split <;> omega

theorem feed_sane (hsane : Sane p) (hne : piece ≠ []) (h : p.feed piece = (.ok (n, event), p')) : Sane p' := by
  by_cases hshort : piece.length < wants p
  · rw [pieces.short p piece trivial hne hshort] at h
    obtain ⟨_, rfl⟩ := Prod.mk.inj h
    exact absorb_sane hsane hshort
  · have hlong : wants p ≤ piece.length := Nat.le_of_not_lt hshort
    rw [pieces.full p piece trivial hne hlong] at h
    have htake : (piece.take (wants p)).length = wants p := by
      rw [List.length_take]
      omega
    exact complete_sane hsane htake (answering_done h)

theorem advance (hsane : Sane p) (hne : piece ≠ []) (h : p.feed piece = (.ok (n, event), p'))
    (htakes : event = .needData → 0 < n) : idle p' < idle p + 3 * n := by
  have hone := idle_le p'
  by_cases hzero : n = 0
  · subst hzero
    exact idle_less hsane hne h
  · omega

end ArParser

/-- The ar parser is in a state its calls lead to. -/
def GoodParser : CpioParser ⊕ (TarParser ⊕ ArParser) → Prop
  | .inr (.inr p) => p.Sane
  | _ => True

/-- What a parser has to hand out or to get past before it takes bytes again. -/
def parserRank : CpioParser ⊕ (TarParser ⊕ ArParser) → Nat
  | .inl p => p.backlog + p.atEmpty
  | .inr (.inl p) => p.overfull
  | .inr (.inr p) => p.idle

theorem archiveParsers_advances : Advances archiveParsers GoodParser parserRank 3 where
  created := by
    intro format
    cases format with
    | ar => exact ArParser.new_sane
    | tar => trivial
    | cpio => trivial
  within := fun _ hne hfeed => archiveParsers_splits.within _ _ _ _ _ hne hfeed
  kept := by
    intro p p' data n event hgood hne hfeed
    rcases p with p | p | p
    · obtain ⟨_, rfl⟩ := Prod.mk.inj hfeed
      trivial
    · obtain ⟨_, rfl⟩ := Prod.mk.inj hfeed
      trivial
    · cases hanswer : p.feed data with
      | mk answer q =>
        have hsame : archiveParsers.feed (.inr (.inr p)) data = (answer.mapError .error, .inr (.inr q)) := by
          show (((p.feed data).1.mapError Fault.error), Sum.inr (Sum.inr (p.feed data).2)) = _
          rw [hanswer]
        rw [hsame] at hfeed
        obtain ⟨hok, rfl⟩ := Prod.mk.inj hfeed
        rw [mapError_eq_ok hok] at hanswer
        exact ArParser.feed_sane hgood hne hanswer
  less := by
    intro p p' data n event hgood hne hfeed hend htakes
    rcases p with p | p | p
    · cases hanswer : p.feed data with
      | mk answer q =>
        have hsame : archiveParsers.feed (.inl p) data = (answer.mapError .error, .inl q) := by
          show (((p.feed data).1.mapError Fault.error), Sum.inl (p.feed data).2) = _
          rw [hanswer]
        rw [hsame] at hfeed
        obtain ⟨hok, rfl⟩ := Prod.mk.inj hfeed
        rw [mapError_eq_ok hok] at hanswer
        exact CpioParser.advance hne hanswer hend htakes
    · obtain ⟨hanswer, rfl⟩ := Prod.mk.inj hfeed
      exact TarParser.advance hne (Prod.ext hanswer rfl) hend htakes
    · cases hanswer : p.feed data with
      | mk answer q =>
        have hsame : archiveParsers.feed (.inr (.inr p)) data = (answer.mapError .error, .inr (.inr q)) := by
          show (((p.feed data).1.mapError Fault.error), Sum.inr (Sum.inr (p.feed data).2)) = _
          rw [hanswer]
        rw [hsame] at hfeed
        obtain ⟨hok, rfl⟩ := Prod.mk.inj hfeed
        rw [mapError_eq_ok hok] at hanswer
        exact ArParser.advance hgood hne hanswer htakes

end Iluvatar
