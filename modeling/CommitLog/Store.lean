import CommitLog.Feed
import CommitLog.Snapshot

/-!
What a commit store does. Every operation takes the store as it is and answers with a value or an
error and the store as it is afterwards; a failed operation may still have changed it.
-/

namespace CommitLog

class CommitStore (σ : Type) where
  /-- A feed of this store in progress. -/
  Feed : Type
  /-- Makes the store ready for use; it may be repeated. -/
  prepare : σ → Except Error Unit × σ
  /-- Adds a commit to its stream, if it is the next one there. -/
  commit : Attempt → σ → Except Error Commit × σ
  /-- The commits of a stream with an event from one revision to another, in order. -/
  getFrom : StreamKey → UInt64 → UInt64 → σ → Except Error (List Commit) × σ
  /-- A feed of what lies after a checkpoint. -/
  openFeed : Scope → Checkpoint → σ → Except Error Feed × σ
  /-- The next item of a feed, or none at its end. -/
  next : Feed → σ → Option FeedItem × Feed × σ
  markDispatched : Checkpoint → σ → Except Error Unit × σ
  head : StreamKey → σ → Except Error (Option StreamHead) × σ
  /-- The newest snapshot of a stream up to a revision. -/
  snapshot : StreamKey → UInt64 → σ → Except Error (Option Snapshot) × σ
  /-- Says whether the snapshot was added; the first of a revision stays. -/
  addSnapshot : Snapshot → σ → Except Error Bool × σ
  /-- The heads in a bucket with at least so many events since their newest snapshot. -/
  streamsToSnapshot : BucketId → UInt64 → σ → Except Error (List StreamHead) × σ
  deleteStream : StreamKey → σ → Except Error Unit × σ
  purgeBucket : BucketId → σ → Except Error Unit × σ
  purge : σ → Except Error Unit × σ
  dispose : σ → Except Error Unit × σ
  isDisposed : σ → Bool
  /-- What is left of a feed. -/
  remaining : Feed → σ → Nat × Nat
  /-- A feed of a store that stays as it is comes to an end. -/
  remaining_next : ∀ {feed : Feed} {store : σ} {item : FeedItem} {rest : Feed} {after : σ},
    next feed store = (some item, rest, after) →
      Remaining.Below (remaining rest after) (remaining feed store)

namespace CommitStore

variable {σ : Type} [CommitStore σ]

/-- All that is left of a feed. -/
def rest (feed : Feed σ) (store : σ) : List FeedItem × σ :=
  match _found : next feed store with
  | (none, _, store) => ([], store)
  | (some item, feed, store) =>
    let (items, store) := rest feed store
    (item :: items, store)
termination_by remaining feed store
decreasing_by exact remaining_next _found

/-- A feed from its start to its end. -/
def readFeed (scope : Scope) (after : Checkpoint) (store : σ) :
    Except Error (List FeedItem) × σ :=
  match openFeed scope after store with
  | (.error error, store) => (.error error, store)
  | (.ok feed, store) =>
    let (items, store) := rest feed store
    (.ok items, store)

/-- Up to so many items of a feed, and whether its end came before there were as many. -/
def take (feed : Feed σ) (store : σ) : Nat → (List FeedItem × Bool) × Feed σ × σ
  | 0 => (([], false), feed, store)
  | count + 1 =>
    match next feed store with
    | (none, feed, store) => (([], true), feed, store)
    | (some item, feed, store) =>
      let ((items, ended), feed, store) := take feed store count
      ((item :: items, ended), feed, store)

/-- Makes commits, whatever becomes of each. -/
def commitAll (attempts : List Attempt) (store : σ) : σ :=
  attempts.foldl (fun store attempt => (commit attempt store).2) store

end CommitStore
end CommitLog
