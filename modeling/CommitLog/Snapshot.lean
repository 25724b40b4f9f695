import CommitLog.Event
import CommitLog.Identity

/-!
Snapshots, and the heads of streams that say how far a stream has moved since its newest one.
-/

namespace CommitLog

/-- The state of a stream after some revision, as opaque octets. -/
structure Snapshot where
  key : StreamKey
  revision : UInt64
  payload : Bytes
  deriving DecidableEq

structure StreamHead where
  key : StreamKey
  /-- The revision of the last commit. -/
  revision : UInt64
  /-- The revision of the newest snapshot, 0 without one. -/
  snapshot : UInt64 := 0
  deriving DecidableEq, Repr

namespace StreamHead

/-- How many events the newest snapshot does not cover; none if it is ahead of the stream. -/
def unsnapshotted (head : StreamHead) : UInt64 :=
  if head.revision < head.snapshot then 0 else head.revision - head.snapshot

end StreamHead
end CommitLog
