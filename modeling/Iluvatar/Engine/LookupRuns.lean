/-
What looking up a path finds.

The table of paths is filled in archive order, so that the last of the entries with a path is
the one it knows.
-/
import Mathlib.Data.List.Induction
import Iluvatar.Engine.Lookup

namespace Iluvatar

variable {σ κ : Type}

namespace ArchiveIndex

/-- The last of the entries with this path. -/
def lastAt (entries : List IndexEntry) (path : String) : Option IndexEntry :=
  (entries.filter fun e => e.path = path).getLast?

/-- The entry a path stands for: the last with the path itself, else the last with its other form. -/
def lookup (entries : List IndexEntry) (path : String) : Option IndexEntry :=
  (lastAt entries path).or (lastAt entries (otherPath path))

theorem lastAt_concat (entries : List IndexEntry) (entry : IndexEntry) (path : String) :
    lastAt (entries ++ [entry]) path = if entry.path = path then some entry else lastAt entries path := by
  unfold lastAt
  rw [List.filter_append]
  by_cases h : entry.path = path
  · rw [if_pos h, List.filter_cons_of_pos (by simpa using h), List.filter_nil, List.getLast?_concat]
  · rw [if_neg h, List.filter_cons_of_neg (by simpa using h), List.filter_nil, List.append_nil]

theorem byPath_concat (entries : List IndexEntry) (entry : IndexEntry) (path : String) :
    byPath (entries ++ [entry]) path = if entry.path = path then some entries.length else byPath entries path := by
  unfold byPath
  rw [List.zipIdx_append, List.foldl_append, Nat.zero_add]
  rfl

/-- The table knows where the last entry with a path stands. -/
theorem byPath_lastAt (path : String) (entries : List IndexEntry) :
    (byPath entries path).bind (entries[·]?) = lastAt entries path ∧
      ∀ position, byPath entries path = some position → position < entries.length := by
  induction entries using List.reverseRecOn with
  | nil => exact ⟨rfl, fun _ h => by cases h⟩
  | append_singleton entries entry ih =>
    obtain ⟨hlast, hbound⟩ := ih
    rw [byPath_concat, lastAt_concat, List.length_append, List.length_singleton]
    by_cases h : entry.path = path
    · rw [if_pos h, if_pos h]
      refine ⟨?_, fun position hposition => ?_⟩
      · rw [Option.bind_some, List.getElem?_append_right (Nat.le_refl _), Nat.sub_self]
        rfl
      · rw [← Option.some.inj hposition]
        exact Nat.lt_succ_self _
    · rw [if_neg h, if_neg h]
      refine ⟨?_, fun position hposition => Nat.lt_succ_of_lt (hbound position hposition)⟩
      cases hfound : byPath entries path with
      | none => rw [← hlast, hfound]; rfl
      | some position =>
        rw [← hlast, hfound, Option.bind_some, Option.bind_some,
          List.getElem?_append_left (hbound position hfound)]

/-- Looking up a path finds what it stands for. -/
theorem get_eq (index : ArchiveIndex σ κ) (path : String) : index.get path = lookup index.entries path := by
  obtain ⟨hlast, hbound⟩ := byPath_lastAt path index.entries
  obtain ⟨hother, _⟩ := byPath_lastAt (otherPath path) index.entries
  unfold get lookup
  rw [← hlast, ← hother]
  cases hfound : byPath index.entries path with
  | some position =>
    have hlt := hbound position hfound
    rw [Option.some_or, Option.bind_some, List.getElem?_eq_getElem hlt, Option.some_or]
    exact List.getElem?_eq_getElem hlt
  | none =>
    rw [Option.none_or, Option.bind_none, Option.none_or]
    cases byPath index.entries (otherPath path) <;> rfl

theorem lookup_mem {entries : List IndexEntry} {path : String} {entry : IndexEntry}
    (h : lookup entries path = some entry) : entry ∈ entries := by
  rcases Option.or_eq_some_iff.mp h with hfound | ⟨_, hfound⟩
  · exact List.mem_of_mem_filter (List.mem_of_getLast? hfound)
  · exact List.mem_of_mem_filter (List.mem_of_getLast? hfound)

/-- What keeps the paths of entries keeps what is found. -/
theorem lastAt_map {f : IndexEntry → IndexEntry} (hf : ∀ e, (f e).path = e.path) (entries : List IndexEntry)
    (path : String) : lastAt (entries.map f) path = (lastAt entries path).map f := by
  unfold lastAt
  rw [List.filter_map, List.getLast?_map]
  congr 2
  exact List.filter_congr fun e _ => by simp only [Function.comp_apply, hf]

theorem lookup_map {f : IndexEntry → IndexEntry} (hf : ∀ e, (f e).path = e.path) (entries : List IndexEntry)
    (path : String) : lookup (entries.map f) path = (lookup entries path).map f := by
  unfold lookup
  rw [lastAt_map hf, lastAt_map hf]
  cases lastAt entries path <;> rfl

end ArchiveIndex
end Iluvatar
