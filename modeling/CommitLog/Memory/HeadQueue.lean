import CommitLog.Snapshot

/-!
The heads of streams in memory. A commit only queues the new revision of its stream; the queue is
bounded and is worked off from the front, at the latest when heads are asked for. A head never
falls back.
-/

namespace CommitLog.Memory

structure HeadUpdate where
  key : StreamKey
  revision : UInt64
  deriving DecidableEq

/-- Raises the head of a stream, or adds one without snapshot. -/
def HeadUpdate.apply (update : HeadUpdate) : List StreamHead → List StreamHead
  | [] => [{ key := update.key, revision := update.revision }]
  | head :: rest =>
    if head.key = update.key then
      { head with revision := max head.revision update.revision } :: rest
    else head :: update.apply rest

structure HeadQueue where
  bound : Nat
  /-- Updates that are not applied yet, the oldest first. -/
  pending : List HeadUpdate := []
  heads : List StreamHead := []

namespace HeadQueue

/-- A bound of zero would let nothing in and counts as one. -/
def capacity (queue : HeadQueue) : Nat := max 1 queue.bound

/-- Applies the oldest update. -/
def work (queue : HeadQueue) : HeadQueue :=
  match queue.pending with
  | [] => queue
  | update :: pending => { queue with pending, heads := update.apply queue.heads }

/-- Queues an update, if there is room. -/
def enqueue? (queue : HeadQueue) (update : HeadUpdate) : Option HeadQueue :=
  if queue.pending.length < queue.capacity then
    some { queue with pending := queue.pending ++ [update] }
  else none

/-- Queues an update, waiting for room where there is none. -/
def record (queue : HeadQueue) (update : HeadUpdate) : HeadQueue :=
  ((queue.enqueue? update).orElse fun _ => queue.work.enqueue? update).getD queue

/-- Waits until every update is applied. -/
def settle (queue : HeadQueue) : HeadQueue :=
  { queue with
    pending := []
    heads := queue.pending.foldl (fun heads update => update.apply heads) queue.heads }

def find? (queue : HeadQueue) (key : StreamKey) : Option StreamHead :=
  queue.heads.find? fun head => head.key = key

end HeadQueue
end CommitLog.Memory
