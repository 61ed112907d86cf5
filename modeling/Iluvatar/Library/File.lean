/-
A file behind a handle that reads short, or fails.

The calls on a file are numbered, and how each is answered is laid down beforehand: it
fails, or a read takes at most so many bytes and one more.  A read that does not fail
takes nothing only where there is nothing to take, or no room.
-/
import Mathlib.Data.List.Basic

namespace Sansio

variable {α γ ι : Type}

structure File (α : Type) where
  bytes : List α
  pos : Nat
  calls : Nat
  deriving DecidableEq, Repr

/-- How the calls on a file are answered, by their number. -/
abbrev Answers (ι : Type) := Nat → Except ι Nat

namespace File

def read (answers : Answers ι) (f : File α) (room : Nat) : Except ι (List α) × File α :=
  match answers f.calls with
  | .error e => (.error e, { f with calls := f.calls + 1 })
  | .ok more =>
    let data := (f.bytes.drop f.pos).take (min room (more + 1))
    (.ok data, { f with pos := f.pos + data.length, calls := f.calls + 1 })

def seek (answers : Answers ι) (f : File α) (target : Nat) : Except ι Unit × File α :=
  match answers f.calls with
  | .error e => (.error e, { f with calls := f.calls + 1 })
  | .ok _ => (.ok (), { f with pos := target, calls := f.calls + 1 })

/-- Seek to the end, which tells how long the file is. -/
def seekEnd (answers : Answers ι) (f : File α) : Except ι Nat × File α :=
  match answers f.calls with
  | .error e => (.error e, { f with calls := f.calls + 1 })
  | .ok _ => (.ok f.bytes.length, { f with pos := f.bytes.length, calls := f.calls + 1 })

/-- Read once, and go on with what came or with the news that nothing will. -/
def supply (answers : Answers ι) (f : File α) (room : Nat) (atEnd : γ) (more : List α → γ) : Except ι γ × File α :=
  match f.read answers room with
  | (.error e, f) => (.error e, f)
  | (.ok [], f) => (.ok atEnd, f)
  | (.ok (a :: data), f) => (.ok (more (a :: data)), f)

end File

/-- The calls from `m` up to `n` do not fail. -/
def Answered (answers : Answers ι) (m n : Nat) : Prop :=
  m ≤ n ∧ ∀ i, m ≤ i → i < n → ∃ more, answers i = .ok more

/-- Of the calls from `m` up to `n` the last fails, and it alone. -/
def FailedLast (answers : Answers ι) (m n : Nat) (e : ι) : Prop :=
  ∃ k, n = k + 1 ∧ Answered answers m k ∧ answers k = .error e

variable {answers : Answers ι} {m n k : Nat} {e : ι}

theorem Answered.refl (m : Nat) : Answered answers m m := ⟨Nat.le_refl m, fun _ _ _ => by omega⟩

theorem Answered.trans (h : Answered answers m n) (h' : Answered answers n k) : Answered answers m k := by
  refine ⟨Nat.le_trans h.1 h'.1, fun i hm hk => ?_⟩
  by_cases hn : i < n
  · exact h.2 i hm hn
  · exact h'.2 i (by omega) hk

theorem Answered.failedLast (h : Answered answers m n) (h' : FailedLast answers n k e) :
    FailedLast answers m k e := by
  obtain ⟨i, hk, hfine, hfail⟩ := h'
  exact ⟨i, hk, h.trans hfine, hfail⟩

theorem Answered.one {more : Nat} (h : answers m = .ok more) : Answered answers m (m + 1) := by
  refine ⟨Nat.le_succ m, fun i hm hi => ?_⟩
  obtain rfl : i = m := by omega
  exact ⟨more, h⟩

theorem FailedLast.one (h : answers m = .error e) : FailedLast answers m (m + 1) e :=
  ⟨m, rfl, .refl m, h⟩

namespace File

/-- A read takes what comes next in the file, or it fails and leaves the file where it was. -/
theorem read_cases (f : File α) (room : Nat) :
    (∃ e, f.read answers room = (.error e, { f with calls := f.calls + 1 }) ∧
      FailedLast answers f.calls (f.calls + 1) e) ∨
    ∃ more, f.read answers room = (.ok ((f.bytes.drop f.pos).take (min room (more + 1))),
        { f with
          pos := f.pos + ((f.bytes.drop f.pos).take (min room (more + 1))).length
          calls := f.calls + 1 }) ∧
      Answered answers f.calls (f.calls + 1) := by
  unfold read
  cases hanswer : answers f.calls with
  | error e => exact .inl ⟨e, rfl, .one hanswer⟩
  | ok more => exact .inr ⟨more, rfl, .one hanswer⟩

theorem seek_cases (f : File α) (target : Nat) :
    (∃ e, f.seek answers target = (.error e, { f with calls := f.calls + 1 }) ∧
      FailedLast answers f.calls (f.calls + 1) e) ∨
    (f.seek answers target = (.ok (), { f with pos := target, calls := f.calls + 1 }) ∧
      Answered answers f.calls (f.calls + 1)) := by
  unfold seek
  cases hanswer : answers f.calls with
  | error e => exact .inl ⟨e, rfl, .one hanswer⟩
  | ok more => exact .inr ⟨rfl, .one hanswer⟩

theorem seekEnd_cases (f : File α) :
    (∃ e, f.seekEnd answers = (.error e, { f with calls := f.calls + 1 }) ∧
      FailedLast answers f.calls (f.calls + 1) e) ∨
    (f.seekEnd answers = (.ok f.bytes.length, { f with pos := f.bytes.length, calls := f.calls + 1 }) ∧
      Answered answers f.calls (f.calls + 1)) := by
  unfold seekEnd
  cases hanswer : answers f.calls with
  | error e => exact .inl ⟨e, rfl, .one hanswer⟩
  | ok more => exact .inr ⟨rfl, .one hanswer⟩

/-- With room for something, a read comes to nothing only at the end. -/
theorem supply_cases (f : File α) {room : Nat} (hroom : 0 < room) (atEnd : γ) (more : List α → γ) :
    (∃ e, f.supply answers room atEnd more = (.error e, { f with calls := f.calls + 1 }) ∧
      FailedLast answers f.calls (f.calls + 1) e) ∨
    ∃ n, Answered answers f.calls (f.calls + 1) ∧
      match (f.bytes.drop f.pos).take (n + 1) with
      | [] => f.supply answers room atEnd more = (.ok atEnd, { f with calls := f.calls + 1 })
      | a :: data => f.supply answers room atEnd more =
        (.ok (more (a :: data)), { f with pos := f.pos + (a :: data).length, calls := f.calls + 1 }) := by
  rcases @read_cases α ι answers f room with ⟨e, hread, hfail⟩ | ⟨n, hread, hfine⟩
  · refine .inl ⟨e, ?_, hfail⟩
    rw [supply, hread]
  · refine .inr ⟨min room (n + 1) - 1, hfine, ?_⟩
    rw [show min room (n + 1) - 1 + 1 = min room (n + 1) by omega]
    cases htake : (f.bytes.drop f.pos).take (min room (n + 1)) with
    | nil =>
      rw [htake] at hread
      simp only [supply, hread, List.length_nil, Nat.add_zero]
    | cons a data =>
      rw [htake] at hread
      simp only [supply, hread]

end File
end Sansio
