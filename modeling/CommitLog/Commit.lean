import CommitLog.Error
import CommitLog.Event

/-!
Commits and the attempts they come from. A commit adds its events to a stream at once; its
revision is the number of events the stream then has, and its sequence the number of commits. The
arithmetic on them is checked, since an attempt may claim any two numbers.
-/

namespace CommitLog

/-- The largest revision that can be stored. -/
def maxRevision : UInt64 := 9223372036854775807

/-- A commit as a writer proposes it. -/
structure Attempt where
  bucket : BucketId
  stream : StreamId
  /-- The revision of the last event. -/
  revision : UInt64
  id : CommitId
  sequence : UInt64
  /-- Milliseconds since 1970. -/
  stamp : UInt64
  headers : Headers
  events : List Event

/-- A commit as it is stored. -/
structure Commit extends Attempt where
  checkpoint : Checkpoint

namespace Attempt

def key (attempt : Attempt) : StreamKey := ⟨attempt.bucket, attempt.stream⟩

/-- The first flaw that shows without looking at the stream. -/
def validate (attempt : Attempt) : Except Error Unit :=
  if attempt.events.isEmpty then
    .error (.invalidAttempt (.noEvents attempt.id attempt.key))
  else if attempt.sequence = 0 then
    .error (.invalidAttempt (.sequenceZero attempt.id))
  else if attempt.revision.toNat < attempt.events.length ∨ maxRevision < attempt.revision then
    .error (.invalidAttempt (.revisionRange attempt.id attempt.revision attempt.events.length))
  else .ok ()

/-- The revision of the first event. -/
def firstRevision (attempt : Attempt) : Except Overflow UInt64 := do
  Overflow.difference (← Overflow.sum attempt.revision 1) attempt.events.length

/-- The revision the stream must have for the attempt to extend it. -/
def previousRevision (attempt : Attempt) : Except Overflow UInt64 :=
  Overflow.difference attempt.revision attempt.events.length

def toCommit (attempt : Attempt) (checkpoint : Checkpoint) : Commit :=
  { attempt with checkpoint }

/-- Whether an event of the attempt has a revision from `least` to `most`. -/
def intersects (attempt : Attempt) (least most : UInt64) : Except Overflow Bool := do
  if attempt.revision < least then return false
  return (← attempt.firstRevision) ≤ most

/-- The answer when the stream already holds the id. -/
def duplicate (attempt : Attempt) : Error := .duplicateCommit attempt.key attempt.id

/-- The answer when the stream already has a commit of this sequence. -/
def conflict (attempt : Attempt) : Error := .concurrency attempt.key attempt.sequence

/-- Whether the attempt is the next one after a stream's last sequence and revision. -/
def checkFollows (attempt : Attempt) (lastSequence lastRevision : UInt64) : Except Error Unit := do
  if attempt.sequence ≤ lastSequence then throw attempt.conflict
  if attempt.sequence ≠ lastSequence + 1 then
    throw (.invalidAttempt (.sequenceGap attempt.sequence lastSequence))
  if (← attempt.previousRevision) ≠ lastRevision then
    throw (.invalidAttempt (.revisionMismatch (← attempt.firstRevision) lastRevision))

end Attempt

namespace Commit

def key (commit : Commit) : StreamKey := commit.toAttempt.key

end Commit
end CommitLog
