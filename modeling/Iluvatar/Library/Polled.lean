/-
A file whose calls may be pending, and a cursor that is polled.

A call that is pending has come to nothing yet: the file wakes the caller once it is worth
calling again.  A seek is started first, and the file moves when it is complete.  A polled
cursor says in addition that there is nothing for now, and stays where it was.
-/
import Iluvatar.Library.Cursor
import Iluvatar.Library.File

namespace Sansio

variable {α β ε ι : Type}

inductive Poll (ε β : Type) where
  | pending
  | failed (e : ε)
  | ready (b : β)
  deriving DecidableEq, Repr

/-- A file, and where the seek that was started will take it. -/
structure PolledFile (α : Type) extends File α where
  seeking : Option Nat

/-- How the calls on a file are answered, by their number. -/
structure Polling (ι : Type) where
  read : Nat → Poll ι Nat
  start : Nat → Except ι Unit
  complete : Nat → Poll ι Unit

namespace PolledFile

def pollRead (polling : Polling ι) (f : PolledFile α) (room : Nat) : Poll ι (List α) × PolledFile α :=
  match polling.read f.calls with
  | .pending => (.pending, { f with calls := f.calls + 1 })
  | .failed e => (.failed e, { f with calls := f.calls + 1 })
  | .ready more =>
    let data := (f.bytes.drop f.pos).take (min room (more + 1))
    (.ready data, { f with pos := f.pos + data.length, calls := f.calls + 1 })

def startSeek (polling : Polling ι) (f : PolledFile α) (target : Nat) : Except ι Unit × PolledFile α :=
  match polling.start f.calls with
  | .error e => (.error e, { f with calls := f.calls + 1 })
  | .ok () => (.ok (), { f with seeking := some target, calls := f.calls + 1 })

/-- A seek that failed is over, and the file stays where it was. -/
def pollComplete (polling : Polling ι) (f : PolledFile α) : Poll ι Unit × PolledFile α :=
  match polling.complete f.calls with
  | .pending => (.pending, { f with calls := f.calls + 1 })
  | .failed e => (.failed e, { f with seeking := none, calls := f.calls + 1 })
  | .ready () => (.ready (), { f with pos := f.seeking.getD f.pos, seeking := none, calls := f.calls + 1 })

/-- A read that is ready is one of the file underneath. -/
theorem pollRead_cases (polling : Polling ι) (f : PolledFile α) (room : Nat) :
    (f.pollRead polling room = (.pending, { f with calls := f.calls + 1 }) ∧ polling.read f.calls = .pending) ∨
    (∃ e, f.pollRead polling room = (.failed e, { f with calls := f.calls + 1 }) ∧
      polling.read f.calls = .failed e) ∨
    ∃ more data file, f.pollRead polling room = (.ready data, { f with toFile := file }) ∧
      @File.read α ι (fun _ => .ok more) f.toFile room = (.ok data, file) := by
  unfold pollRead
  cases hread : polling.read f.calls with
  | pending => exact .inl ⟨rfl, rfl⟩
  | failed e => exact .inr (.inl ⟨e, rfl, rfl⟩)
  | ready more => exact .inr (.inr ⟨more, _, _, rfl, rfl⟩)

theorem startSeek_cases (polling : Polling ι) (f : PolledFile α) (target : Nat) :
    (∃ e, f.startSeek polling target = (.error e, { f with calls := f.calls + 1 }) ∧
      polling.start f.calls = .error e) ∨
    f.startSeek polling target = (.ok (), { f with seeking := some target, calls := f.calls + 1 }) := by
  unfold startSeek
  cases hstart : polling.start f.calls with
  | error e => exact .inl ⟨e, rfl, rfl⟩
  | ok _ => exact .inr rfl

theorem pollComplete_cases (polling : Polling ι) (f : PolledFile α) :
    (f.pollComplete polling = (.pending, { f with calls := f.calls + 1 }) ∧ polling.complete f.calls = .pending) ∨
    (∃ e, polling.complete f.calls = .failed e) ∨
    f.pollComplete polling =
      (.ready (), { f with pos := f.seeking.getD f.pos, seeking := none, calls := f.calls + 1 }) := by
  unfold pollComplete
  cases hcomplete : polling.complete f.calls with
  | pending => exact .inl ⟨rfl, rfl⟩
  | failed e => exact .inr (.inl ⟨e, rfl⟩)
  | ready _ => exact .inr (.inr rfl)

end PolledFile

namespace Cursor

/-- A poll with room for `room`. -/
inductive Polls (fails : ε → Prop) (room : Nat) : Cursor α ε → Poll ε (List α) → Cursor α ε → Prop
  | pending {c} : Polls fails room c .pending c
  | failed {c e c'} (h : Reads fails room c (.error e) c') : Polls fails room c (.failed e) c'
  | ready {c out c'} (h : Reads fails room c (.ok out) c') : Polls fails room c (.ready out) c'

/-- Poll after poll, each with room of its own. -/
inductive PollRun (fails : ε → Prop) : Cursor α ε → List Nat → List (Poll ε (List α)) → Cursor α ε → Prop
  | nil {c} : PollRun fails c [] [] c
  | cons {c c' c'' room rooms result results} (head : Polls fails room c result c')
      (tail : PollRun fails c' rooms results c'') : PollRun fails c (room :: rooms) (result :: results) c''

/-- What a poll took. -/
def polled : Poll ε (List α) → List α
  | .ready out => out
  | _ => []

theorem Polls.left {fails : ε → Prop} {room : Nat} {c c' : Cursor α ε} {result : Poll ε (List α)}
    (h : Polls fails room c result c') : polled result ++ c'.left = c.left := by
  cases h with
  | pending => rfl
  | failed h => exact h.left
  | ready h => exact h.left

/-- Nothing is lost between the polls and nothing read twice. -/
theorem PollRun.left {fails : ε → Prop} {c c' : Cursor α ε} {rooms : List Nat} {results : List (Poll ε (List α))}
    (h : PollRun fails c rooms results c') : results.flatMap polled ++ c'.left = c.left := by
  induction h with
  | nil => rfl
  | cons head tail ih => rw [List.flatMap_cons, List.append_assoc, ih, head.left]

end Cursor
end Sansio
