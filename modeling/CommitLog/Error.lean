import CommitLog.Identity

/-!
What can go wrong, by cause, and how it is worded. Only an unreachable backend is expected to
come back on its own.
-/

namespace CommitLog

/-- Why an attempt to commit is malformed. -/
inductive Flaw where
  | noEvents (id : CommitId) (key : StreamKey)
  | sequenceZero (id : CommitId)
  /-- The revision is below the number of events or beyond the last revision. -/
  | revisionRange (id : CommitId) (revision : UInt64) (events : Nat)
  | sequenceGap (sequence last : UInt64)
  | revisionMismatch (first last : UInt64)
  /-- Refused by a rule of the host. -/
  | refused (reason : String)
  deriving DecidableEq, Repr

def Flaw.message : Flaw → String
  | .noEvents id key => s!"commit '{id}' on {key.bucket}/{key.stream} has no events"
  | .sequenceZero id => s!"commit '{id}' claims sequence 0; sequences start at 1"
  | .revisionRange id revision events =>
    s!"commit '{id}' reaches revision {revision} with {events} events"
  | .sequenceGap sequence last => s!"commit sequence {sequence} leaves a gap after {last}"
  | .revisionMismatch first last =>
    s!"commit starts at revision {first} but the stream is at {last}"
  | .refused reason => reason

/-- Why a backend is out of reach for now. -/
inductive Unreachable where
  /-- Another connection holds the write lock. -/
  | locked
  | cannotOpen
  | outage (reason : String)
  deriving DecidableEq, Repr

def Unreachable.message : Unreachable → String
  | .locked => "database is locked"
  | .cannotOpen => "unable to open database file"
  | .outage reason => reason

/-- Why a database cannot be used. -/
inductive SchemaFault where
  | versionMismatch (found required : String)
  | other (reason : String)
  deriving DecidableEq, Repr

def SchemaFault.message : SchemaFault → String
  | .versionMismatch found required =>
    s!"schema version mismatch: database has version {found}, but this SpiteLog version requires {required}"
  | .other reason => reason

inductive Error where
  /-- Another commit already has the sequence. -/
  | concurrency (key : StreamKey) (sequence : UInt64)
  /-- The stream already holds a commit of this id. -/
  | duplicateCommit (key : StreamKey) (id : CommitId)
  | streamNotFound (key : StreamKey)
  | invalidAttempt (flaw : Flaw)
  | storageUnavailable (cause : Unreachable)
  | storage (reason : String)
  | sql (reason : String)
  | schema (fault : SchemaFault)
  /-- A stored row does not match its checksum. -/
  | corrupted (checkpoint : Checkpoint)
  /-- Octets that are not the stored form of the value asked for. -/
  | serialization (reason : String)
  | disposed
  | pollerTimeout (name : String) (milliseconds : Nat)
  /-- A number left its word and the call was abandoned. -/
  | overflow (cause : Overflow)
  deriving DecidableEq, Repr

namespace Error

def message : Error → String
  | .concurrency key sequence =>
    s!"concurrency conflict on {key.bucket}/{key.stream}: commit sequence {sequence} is already taken"
  | .duplicateCommit key id =>
    s!"duplicate commit '{id}' on {key.bucket}/{key.stream}: already persisted"
  | .streamNotFound key => s!"stream {key.bucket}/{key.stream} not found"
  | .invalidAttempt flaw => s!"invalid commit attempt: {flaw.message}"
  | .storageUnavailable cause => s!"storage unavailable: {cause.message}"
  | .storage reason => s!"storage error: {reason}"
  | .sql reason => s!"sqlite error: {reason}"
  | .schema fault => s!"schema error: {fault.message}"
  | .corrupted checkpoint => s!"corrupted commit at checkpoint {checkpoint}: checksum mismatch"
  | .serialization reason => s!"serialization error: {reason}"
  | .disposed => "commit store has been disposed"
  | .pollerTimeout name milliseconds => s!"poller '{name}' did not stop within {milliseconds}ms"
  | .overflow cause => cause.message

/-- Whether the failure is expected to clear on its own. -/
def isTransient : Error → Bool
  | .storageUnavailable _ => true
  | _ => false

end Error

instance : MonadLift (Except Overflow) (Except Error) := ⟨Except.mapError Error.overflow⟩

end CommitLog
