import CommitLog.Feed

/-!
What the database engine says and is told: the classes of its result codes and the query for a
page of a feed.
-/

namespace CommitLog.Dialect

/-- An extended result code; its low octet is the primary code. -/
structure ResultCode where
  extended : Int
  deriving DecidableEq, Repr

namespace ResultCode

def primary (code : ResultCode) : Int := code.extended % 256

/-- A unique index or a primary key already has the entry. -/
def isDuplicateKey (code : ResultCode) : Bool :=
  code.primary = 19 && (code.extended = 2067 || code.extended = 1555)

/-- Busy, locked, or cannot be opened. -/
def isTransient (code : ResultCode) : Bool :=
  code.primary = 5 || code.primary = 6 || code.primary = 14

end ResultCode

/-- A failure with a result code, or one that has none. -/
abbrev Failure := Option ResultCode

def isDuplicateKey (failure : Failure) : Bool := failure.any ResultCode.isDuplicateKey

def isTransient (failure : Failure) : Bool := failure.any ResultCode.isTransient

/-- The columns of a commit, in the order in which they are read. -/
def commitColumns : String :=
  "checkpoint_number, bucket_id, stream_id, stream_revision, commit_id, " ++
    "commit_sequence, commit_stamp_ms, headers, payload, checksum"

def scopeCondition : Scope → String
  | .all => ""
  | .bucket _ => " AND bucket_id = ?3"
  | .undispatched => " AND dispatched = 0"

/-- A page of a feed: after the first argument, at most as many rows as the second says. -/
def feedPageQuery (scope : Scope) : String :=
  "SELECT " ++ commitColumns ++ " FROM commits WHERE checkpoint_number > ?1" ++
    scopeCondition scope ++ " ORDER BY checkpoint_number LIMIT ?2"

end CommitLog.Dialect
