/-
The asynchronous reader of an entry: the machine behind `poll_read`.

Between two polls the machine keeps what it was about to do with the file.  A seek is
started, then waited for; a call on the file that is pending ends the poll.
-/
import Iluvatar.Library.Polled
import Iluvatar.Sync.Reader

namespace Iluvatar.Tokio

open Sansio

variable {σ κ ι : Type}

/-- What the reader does next. -/
inductive PollState where
  | driveEngine
  | startSeek (offset readLen : Nat)
  | waitSeek (readLen : Nat)
  | pendingRead (readLen : Nat)
  | done
  deriving DecidableEq, Repr

structure EntryReader (σ κ : Type) where
  reader : PolledFile Byte
  engine : StreamReader σ κ
  state : PollState

namespace EntryReader

def overFile (reader : PolledFile Byte) (engine : StreamReader σ κ) : EntryReader σ κ :=
  { reader, engine, state := .driveEngine }

/-- Go from state to state until there is something to say. -/
def pollLoop (polling : Polling ι) (fuel room : Nat) :
    Nat → EntryReader σ κ → Option (Poll (ReadError ι) (List Byte) × EntryReader σ κ)
  | 0, _ => none
  | rounds + 1, e =>
    match e.state with
    | .done => some (.ready [], e)
    | .driveEngine =>
      match e.engine.readOutput room with
      | (b :: out, r) => some (.ready (b :: out), { e with engine := r })
      | ([], r) =>
        match r.step fuel with
        | none => none
        | some (.needInput, r) =>
          pollLoop polling fuel room rounds { e with engine := r, state := .pendingRead bufSize }
        | some (.seekAndRead offset len, r) =>
          pollLoop polling fuel room rounds { e with engine := r, state := .startSeek offset (min len bufSize) }
        | some (.outputReady, r) =>
          match r.readOutput room with
          | (b :: out, r) => some (.ready (b :: out), { e with engine := r })
          | ([], r) => pollLoop polling fuel room rounds { e with engine := r }
        | some (.done, r) => some (.ready [], { e with engine := r, state := .done })
        | some (.error f, r) => some (.failed (.fault f), { e with engine := r, state := .done })
    | .startSeek offset readLen =>
      match e.reader.startSeek polling offset with
      | (.error err, file) => some (.failed (.io err), { e with reader := file })
      | (.ok (), file) => pollLoop polling fuel room rounds { e with reader := file, state := .waitSeek readLen }
    | .waitSeek readLen =>
      match e.reader.pollComplete polling with
      | (.failed err, file) => some (.failed (.io err), { e with reader := file })
      | (.pending, file) => some (.pending, { e with reader := file })
      | (.ready (), file) => pollLoop polling fuel room rounds { e with reader := file, state := .pendingRead readLen }
    | .pendingRead readLen =>
      match e.reader.pollRead polling readLen with
      | (.failed err, file) => some (.failed (.io err), { e with reader := file })
      | (.pending, file) => some (.pending, { e with reader := file })
      | (.ready [], file) =>
        pollLoop polling fuel room rounds { reader := file, engine := e.engine.signalEof, state := .driveEngine }
      | (.ready (b :: data), file) =>
        pollLoop polling fuel room rounds
          { reader := file, engine := e.engine.provideData (b :: data), state := .driveEngine }

/-- Poll for a buffer with `room` bytes left. -/
def pollRead (polling : Polling ι) (fuel : Nat) (e : EntryReader σ κ) (room : Nat) :
    Option (Poll (ReadError ι) (List Byte) × EntryReader σ κ) :=
  if room = 0 then some (.ready [], e) else pollLoop polling fuel room fuel e

/-- Poll after poll, each for a buffer of its own. -/
def pollAll (polling : Polling ι) (fuel : Nat) :
    List Nat → EntryReader σ κ → Option (List (Poll (ReadError ι) (List Byte)) × EntryReader σ κ)
  | [], e => some ([], e)
  | room :: rooms, e =>
    match e.pollRead polling fuel room with
    | none => none
    | some (result, e) => (pollAll polling fuel rooms e).map fun (results, e) => (result :: results, e)

end EntryReader
end Iluvatar.Tokio
