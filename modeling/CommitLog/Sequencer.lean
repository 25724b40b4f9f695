import CommitLog.Commit

/-!
The order in which a poller delivers commits. A feed may show a checkpoint before the one that
precedes it. Such a commit is held back until the missing one has appeared or the hole has been
waited on for as long as the policy says. An offer is decided first and settled when the consumer
has replied; `handle` is both.
-/

namespace CommitLog

/-- How long a hole is waited on. -/
inductive HolePolicy where
  /-- For some milliseconds since it was first seen. -/
  | elapsed (milliseconds : Nat)
  /-- Until so many offers have been held back. -/
  | retryCount (limit : UInt32)
  | disabled
  deriving DecidableEq, Repr

instance : Inhabited HolePolicy := ⟨.elapsed 2000⟩

/-- What is to happen after a commit. -/
inductive Reply where
  | moveToNext
  /-- Ask again from the same checkpoint. -/
  | retry
  | stop
  deriving DecidableEq, Repr

/-- A missing checkpoint that is waited on. -/
structure Hole where
  expected : Checkpoint
  /-- The clock when it was first seen. -/
  firstSeen : Nat
  retries : UInt32 := 0
  deriving DecidableEq

/-- Counts an offer that is held back. -/
def Hole.countRetry (hole : Hole) : Except Overflow Hole :=
  if hole.retries.toNat + 1 < UInt32.size then .ok { hole with retries := hole.retries + 1 }
  else .error .add

structure Sequencer where
  /-- Everything up to here has been delivered or given up. -/
  lastRead : Checkpoint
  policy : HolePolicy := default
  hole : Option Hole := none
  deriving DecidableEq

namespace Sequencer

/-- What to do with a commit that is offered. -/
inductive Decision where
  /-- It has been read before. -/
  | skip
  /-- It lies beyond a hole. -/
  | hold
  | deliver
  deriving DecidableEq, Repr

def isWaiting (sequencer : Sequencer) : Bool := sequencer.hole.isSome

/-- Whether a hole has been waited on long enough. A clock that went back counts as no time. -/
def exceeded (policy : HolePolicy) (hole : Hole) (now : Nat) : Bool :=
  match policy with
  | .elapsed limit => limit ≤ now - hole.firstSeen
  | .retryCount limit => limit ≤ hole.retries
  | .disabled => true

/-- The hole before a checkpoint, the one that is known already if it is the same. -/
def holeAt (expected : Checkpoint) (now : Nat) (sequencer : Sequencer) : Hole :=
  match sequencer.hole with
  | some hole => if hole.expected = expected then hole else ⟨expected, now, 0⟩
  | none => ⟨expected, now, 0⟩

def offer (checkpoint : Checkpoint) (now : Nat) (sequencer : Sequencer) :
    Except Overflow (Decision × Sequencer) := do
  if checkpoint ≤ sequencer.lastRead then return (.skip, sequencer)
  let expected ← sequencer.lastRead.next
  if checkpoint = expected ∨ sequencer.policy = .disabled then return (.deliver, sequencer)
  let hole := sequencer.holeAt expected now
  if exceeded sequencer.policy hole now then return (.deliver, { sequencer with hole := none })
  return (.hold, { sequencer with hole := some (← hole.countRetry) })

/-- Takes note of the consumer's reply to a commit that was delivered. -/
def settle (checkpoint : Checkpoint) (reply : Reply) (sequencer : Sequencer) : Sequencer :=
  match reply with
  | .moveToNext =>
    { sequencer with
      lastRead := if sequencer.lastRead ≤ checkpoint then checkpoint else sequencer.lastRead
      hole := none }
  | _ => sequencer

/-- What came of an offer: the reply, and the checkpoint if it was delivered. -/
structure Handled where
  reply : Reply
  delivered : Option Checkpoint
  deriving DecidableEq, Repr

/-- Offers a checkpoint; `reply` is what the consumer answers if it is delivered. -/
def handle (checkpoint : Checkpoint) (now : Nat) (reply : Reply) (sequencer : Sequencer) :
    Except Overflow (Handled × Sequencer) := do
  match ← sequencer.offer checkpoint now with
  | (.skip, sequencer) => return (⟨.moveToNext, none⟩, sequencer)
  | (.hold, sequencer) => return (⟨.retry, none⟩, sequencer)
  | (.deliver, sequencer) =>
    return (⟨reply, some checkpoint⟩, sequencer.settle checkpoint reply)

end Sequencer
end CommitLog
