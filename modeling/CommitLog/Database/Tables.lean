import CommitLog.Checksum
import CommitLog.Codec
import CommitLog.Feed
import CommitLog.Snapshot

/-!
The tables of a commit database and the statements that are run on them. Numbers are stored as
signed 64-bit integers; what does not fit is stored as the largest. Headers and events are stored
as octets with a checksum over both. A write runs as one transaction, which changes all tables or
none and cannot start while another connection holds the write lock.
-/

namespace CommitLog

namespace Column

/-- The stored form of a number, the largest integer for those that do not fit. -/
def ofWord (n : UInt64) : Int64 :=
  if n ≤ maxRevision then n.toInt64 else Int64.maxValue

def toWord (n : Int64) : UInt64 := n.toUInt64

end Column

/-- A commit as it is stored. -/
structure Row where
  checkpoint : Checkpoint
  key : StreamKey
  revision : Int64
  /-- How many events the commit was stored with. -/
  items : Int64
  id : CommitId
  sequence : Int64
  stamp : Int64
  dispatched : Bool := false
  headers : Bytes
  payload : Bytes
  checksum : Bytes
  deriving DecidableEq

structure HeadRow where
  key : StreamKey
  revision : Int64
  snapshot : Int64
  deriving DecidableEq

structure SnapshotRow where
  key : StreamKey
  revision : Int64
  payload : Bytes
  deriving DecidableEq

def HeadRow.toHead (row : HeadRow) : StreamHead :=
  ⟨row.key, Column.toWord row.revision, Column.toWord row.snapshot⟩

def SnapshotRow.toSnapshot (row : SnapshotRow) : Snapshot :=
  ⟨row.key, Column.toWord row.revision, row.payload⟩

namespace Row

def intact (row : Row) : Bool := row.checksum = Checksum.ofParts [row.headers, row.payload]

/-- The commit that a row stands for. The checksum is looked at before anything is decoded. -/
def decode (row : Row) : Except Error Commit :=
  if row.intact then
    match Codec.decodeHeaders row.headers, Codec.decodeEvents row.payload with
    | some headers, some events => .ok {
        bucket := row.key.bucket
        stream := row.key.stream
        revision := Column.toWord row.revision
        id := row.id
        sequence := Column.toWord row.sequence
        stamp := Column.toWord row.stamp
        headers
        events
        checkpoint := row.checkpoint }
    | none, _ => .error (.serialization "headers")
    | _, none => .error (.serialization "events")
  else .error (.corrupted row.checkpoint)

/-- The commits of rows up to the first that cannot be read, which fails them all. -/
def decodeAll : List Row → Except Error (List Commit)
  | [] => .ok []
  | row :: rest => do
    let commit ← row.decode
    let commits ← decodeAll rest
    return commit :: commits

/-- Whether an event of the commit has a revision from `least` to `most`, by the columns. -/
def intersects (row : Row) (least most : Int64) : Bool :=
  least.toInt ≤ row.revision.toInt && row.revision.toInt - row.items.toInt + 1 ≤ most.toInt

def inScope (row : Row) : Scope → Bool
  | .all => true
  | .bucket bucket => row.key.bucket = bucket
  | .undispatched => !row.dispatched

end Row

structure Database where
  rows : List Row := []
  /-- The largest checkpoint ever assigned; it survives the removal of rows. -/
  lastCheckpoint : Checkpoint := Checkpoint.start
  heads : List HeadRow := []
  snapshots : List SnapshotRow := []
  /-- The version that is written into the database. -/
  version : Option String := none
  /-- Another connection holds the write lock. -/
  writeLocked : Bool := false
  /-- A further unique index, on the stamps. -/
  stampsUnique : Bool := false

namespace Database

/-- A transaction that writes. -/
def write {α : Type} (change : Database → Except Error (α × Database)) (db : Database) :
    Except Error α × Database :=
  if db.writeLocked then (.error (.storageUnavailable .locked), db)
  else
    match change db with
    | .ok (answer, db) => (.ok answer, db)
    | .error error => (.error error, db)

/-! ## Commits -/

def stream (db : Database) (key : StreamKey) : List Row := db.rows.filter fun row => row.key = key

/-- Whether the stream of the attempt holds its id. -/
def holdsId (db : Database) (attempt : Attempt) : Bool :=
  (db.stream attempt.key).any fun row => row.id = attempt.id

/-- The row of the greatest sequence of a stream. -/
def lastRow (db : Database) (key : StreamKey) : Option Row :=
  ((db.stream key).mergeSort fun a b => b.sequence.toInt ≤ a.sequence.toInt).head?

/-- Whether a unique index already has the entry of a new row. -/
def violatesUnique (db : Database) (row : Row) : Bool :=
  db.rows.any fun other =>
    (other.key = row.key && (other.sequence = row.sequence || other.id = row.id)) ||
      (db.stampsUnique && other.stamp = row.stamp)

/-- Raises the head of a stream, or adds one without snapshot. -/
def raiseHead (key : StreamKey) (revision : Int64) : List HeadRow → List HeadRow
  | [] => [⟨key, revision, 0⟩]
  | head :: rest =>
    if head.key = key then
      { head with revision := if head.revision < revision then revision else head.revision } :: rest
    else head :: raiseHead key revision rest

/-- The row of an attempt. -/
def rowOf (attempt : Attempt) (checkpoint : Checkpoint) : Row :=
  let headers := Codec.renderHeaders attempt.headers
  let payload := Codec.renderEvents attempt.events
  { checkpoint
    key := attempt.key
    revision := Column.ofWord attempt.revision
    items := Int64.ofNat attempt.events.length
    id := attempt.id
    sequence := Column.ofWord attempt.sequence
    stamp := Column.ofWord attempt.stamp
    headers
    payload
    checksum := Checksum.ofParts [headers, payload] }

/-- Adds a commit, if it is the next one of its stream, at the next checkpoint. -/
def append (attempt : Attempt) (db : Database) : Except Error (Checkpoint × Database) := do
  if db.holdsId attempt then throw attempt.duplicate
  let last := db.lastRow attempt.key
  attempt.checkFollows ((last.map fun row => Column.toWord row.sequence).getD 0)
    ((last.map fun row => Column.toWord row.revision).getD 0)
  let checkpoint ← match db.lastCheckpoint.next with
    | .ok checkpoint => pure checkpoint
    | .error _ => throw (.sql "database or disk is full")
  let row := rowOf attempt checkpoint
  if db.violatesUnique row then
    throw (if db.holdsId attempt then attempt.duplicate else attempt.conflict)
  return (checkpoint, { db with
    rows := db.rows ++ [row]
    lastCheckpoint := checkpoint
    heads := raiseHead attempt.key (Column.ofWord attempt.revision) db.heads })

/-- The rows of a stream with an event from one revision to another, by sequence. -/
def range (db : Database) (key : StreamKey) (least most : UInt64) : List Row :=
  ((db.stream key).filter fun row =>
    row.intersects (Column.ofWord least) (Column.ofWord most)).mergeSort fun a b =>
      a.sequence.toInt ≤ b.sequence.toInt

/-- The rows of a feed after a checkpoint, in order. -/
def later (db : Database) (scope : Scope) (after : Checkpoint) : List Row :=
  (db.rows.filter fun row => after < row.checkpoint && row.inScope scope).mergeSort fun a b =>
    a.checkpoint ≤ b.checkpoint

def markDispatched (checkpoint : Checkpoint) (db : Database) : Database :=
  { db with rows := db.rows.map fun row =>
      if row.checkpoint = checkpoint then { row with dispatched := true } else row }

/-! ## Heads and snapshots -/

def head? (db : Database) (key : StreamKey) : Option HeadRow :=
  db.heads.find? fun head => head.key = key

/-- The snapshot of the greatest revision up to `most`. -/
def snapshot? (db : Database) (key : StreamKey) (most : UInt64) : Option SnapshotRow :=
  ((db.snapshots.filter fun row =>
    row.key = key ∧ row.revision ≤ Column.ofWord most).mergeSort fun a b =>
      b.revision.toInt ≤ a.revision.toInt).head?

/-- Adds a snapshot of a stream that has a head, unless there is one of the revision. -/
def addSnapshot (snapshot : Snapshot) (db : Database) : Bool × Database :=
  let revision := Column.ofWord snapshot.revision
  if (db.head? snapshot.key).isNone then (false, db)
  else if db.snapshots.any fun row => row.key = snapshot.key ∧ row.revision = revision then
    (false, db)
  else
    (true, { db with
      snapshots := db.snapshots ++ [⟨snapshot.key, revision, snapshot.payload⟩]
      heads := db.heads.map fun head =>
        if head.key = snapshot.key then
          { head with snapshot := if head.snapshot < revision then revision else head.snapshot }
        else head })

/-- How far a head is ahead of its newest snapshot; negative if it is behind. -/
def HeadRow.lead (head : HeadRow) : Int := head.revision.toInt - head.snapshot.toInt

/-- A greater lead comes first, then the lesser name. -/
def dueOrder (a b : HeadRow) : Bool :=
  HeadRow.lead b < HeadRow.lead a ||
    (HeadRow.lead a = HeadRow.lead b && a.key.stream.text ≤ b.key.stream.text)

def streamsToSnapshot (db : Database) (bucket : BucketId) (threshold : UInt64) : List HeadRow :=
  (db.heads.filter fun head =>
    head.key.bucket = bucket && (Column.ofWord threshold).toInt ≤ max (HeadRow.lead head) 0).mergeSort
      dueOrder

/-! ## Removal -/

/-- Removes the streams of which `gone` holds from all tables. -/
def removeWhere (gone : StreamKey → Bool) (db : Database) : Database :=
  { db with
    rows := db.rows.filter fun row => !gone row.key
    heads := db.heads.filter fun head => !gone head.key
    snapshots := db.snapshots.filter fun row => !gone row.key }

/-! ## Opening -/

/-- The version this library reads and writes. -/
def schemaVersion : String := "1"

/-- Refuses a database of another version, and writes the version into one that has none. -/
def verifyVersion (db : Database) : Except Error Unit × Database :=
  match db.version with
  | some version =>
    if version = schemaVersion then (.ok (), db)
    else (.error (.schema (.versionMismatch version schemaVersion)), db)
  | none => db.write fun db => .ok ((), { db with version := some schemaVersion })

end Database
end CommitLog
