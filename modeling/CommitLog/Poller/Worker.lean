import CommitLog.Feed
import CommitLog.Poller.Throttle
import CommitLog.Sequencer

/-!
A poller reads a feed in polls, each from the last checkpoint that was handled, and offers what it
reads to a sequencer and, as far as that lets it, to a handler. A poll ends with the feed, with an
error in it, or when the sequencer or the handler says so.
-/

namespace CommitLog

/-- All times are in milliseconds. -/
structure PollerConfig where
  name : String := "commit-poller"
  /-- From the end of a feed to the next poll. -/
  pollInterval : Nat := 500
  holePolicy : HolePolicy := default
  /-- Before the next poll when the last is to be repeated. -/
  retryBackoff : Nat := 50
  /-- Before the next poll after an error. -/
  errorBackoff : Nat := 1000
  errorLogInterval : Nat := 60000
  /-- How long the worker is waited for at the end. -/
  disposeTimeout : Nat := 5000

namespace Poller

/-- What a poller shows to others. -/
structure Status where
  /-- The last checkpoint that was handled. -/
  checkpoint : Checkpoint
  /-- The error of the last poll, if it ended in one. -/
  lastError : Option Error := none
  /-- The worker has not come to its regular end. -/
  running : Bool := true
  /-- There has been a poll. -/
  active : Bool := false

/-- How a poll ends. -/
inductive Outcome where
  /-- Nothing is left of the feed. -/
  | drained
  | retry
  | failed
  | stopped
  /-- The worker has broken off in the middle. -/
  | broken
  deriving DecidableEq, Repr

/-- An error that was logged, and how many before it were not, as the throttle has counted them. -/
structure LogEntry where
  error : Error
  suppressed : Nat

structure Worker where
  sequencer : Sequencer
  throttle : Throttle
  status : Status
  log : List LogEntry := []

/-- What a poll works through: items that come one at a time, and a handler. What the handler does
may change the items that are still to come, but cannot keep them coming for ever. A feed that
cannot be opened has the error as its first item. -/
class Intake (φ : Type) extends WellFoundedRelation φ where
  /-- Milliseconds. -/
  clock : φ → Nat
  next : φ → Option FeedItem × φ
  /-- Whether the worker has been told to stop. -/
  stopRequested : φ → Bool
  /-- The handler's reply to a commit, or none if it breaks off. The status is what it can see. -/
  handle : Commit → Status → φ → Option Reply × φ
  rel_next : ∀ {intake : φ} {item : FeedItem} {rest : φ},
    next intake = (some item, rest) → rel rest intake
  rel_handle : ∀ {intake : φ} {item : FeedItem} {rest : φ} {commit : Commit} {status : Status}
      {reply : Option Reply} {after : φ},
    next intake = (some item, rest) → handle commit status rest = (reply, after) → rel after intake

namespace Worker

def create (start : Checkpoint) (config : PollerConfig) : Worker where
  sequencer := { lastRead := start, policy := config.holePolicy }
  throttle := { interval := config.errorLogInterval }
  status := { checkpoint := start }

def touch (worker : Worker) : Worker :=
  { worker with status := { worker.status with active := true } }

def clearError (worker : Worker) : Worker :=
  { worker with status := { worker.status with lastError := none } }

/-- Shows how far the sequencer has come. -/
def advance (worker : Worker) : Worker :=
  { worker with status := { worker.status with checkpoint := worker.sequencer.lastRead } }

/-- Keeps an error in the status, and in the log if the throttle admits it. -/
def fail (error : Error) (now : Nat) (worker : Worker) : Worker :=
  let (admitted, throttle) := worker.throttle.letThrough now
  { worker with
    throttle
    log := worker.log ++ admitted.toList.map fun suppressed => ⟨error, suppressed⟩
    status := { worker.status with lastError := some error } }

def finish (worker : Worker) : Worker :=
  { worker with status := { worker.status with running := false } }

variable {φ : Type} [Intake φ]

/-- Works through the items. Between two commits a request to stop is heard. -/
def drain (worker : Worker) (intake : φ) : Outcome × Worker × φ :=
  match _found : Intake.next intake with
  | (none, rest) => (.drained, worker.clearError, rest)
  | (some (.error error), rest) => (.failed, worker.fail error (Intake.clock rest), rest)
  | (some (.ok commit), rest) =>
    let worker := worker.clearError
    if Intake.stopRequested rest then (.stopped, worker, rest)
    else
      match worker.sequencer.offer commit.checkpoint (Intake.clock rest) with
      | .error _ => (.broken, worker, rest)
      | .ok (.skip, sequencer) => drain { worker with sequencer }.advance rest
      | .ok (.hold, sequencer) => (.retry, { worker with sequencer }, rest)
      | .ok (.deliver, sequencer) =>
        match _handled : Intake.handle commit worker.status rest with
        | (none, after) => (.broken, { worker with sequencer }, after)
        | (some reply, after) =>
          let worker := { worker with sequencer := sequencer.settle commit.checkpoint reply }
          match reply with
          | .moveToNext => drain worker.advance after
          | .retry => (.retry, worker, after)
          | .stop => (.stopped, worker, after)
termination_by intake
decreasing_by
  · exact Intake.rel_next _found
  · exact Intake.rel_handle _found _handled

def poll (worker : Worker) (intake : φ) : Outcome × Worker × φ := worker.touch.drain intake

end Worker

/-- Waits for a worker to come to its end. One that is busy for all the time is left alone. -/
def dispose (config : PollerConfig) (busy : Bool) : Except Error Unit :=
  if busy then .error (.pollerTimeout config.name config.disposeTimeout) else .ok ()

end Poller
end CommitLog
