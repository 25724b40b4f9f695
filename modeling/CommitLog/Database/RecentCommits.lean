import CommitLog.Identity

/-!
The commits that a store has made lately, the latest first, so that a repeated one is recognised
without asking the database. The least recent is forgotten when there is no room.
-/

namespace CommitLog

/-- A commit id within its stream. -/
structure CommitKey where
  stream : StreamKey
  id : CommitId
  deriving DecidableEq

structure RecentCommits where
  bound : Nat
  keys : List CommitKey := []

namespace RecentCommits

/-- A bound of zero counts as one. -/
def capacity (recent : RecentCommits) : Nat := max 1 recent.bound

def contains (recent : RecentCommits) (key : CommitKey) : Bool := recent.keys.contains key

/-- Puts a key in front. -/
def insert (recent : RecentCommits) (key : CommitKey) : RecentCommits :=
  { recent with
    keys := (key :: recent.keys.filter fun other => other ≠ key).take recent.capacity }

/-- Forgets the commits of the streams of which `gone` holds. -/
def forget (recent : RecentCommits) (gone : StreamKey → Bool) : RecentCommits :=
  { recent with keys := recent.keys.filter fun key => !gone key.stream }

end RecentCommits
end CommitLog
