import CommitLog.Database.Store

/-!
A database file that several stores may share, and what others can do to it behind their back.
Others who hold the write lock work on a copy, which is dropped when they give the lock back.
-/

namespace CommitLog.Database

/-- A column that holds octets. -/
inductive OctetColumn where
  | headers
  | payload
  | checksum
  deriving DecidableEq, Repr

namespace OctetColumn

def write (column : OctetColumn) (content : Bytes) (row : Row) : Row :=
  match column with
  | .headers => { row with headers := content }
  | .payload => { row with payload := content }
  | .checksum => { row with checksum := content }

end OctetColumn

/-- The row with the checksum that it should have. -/
def sealRow (row : Row) : Row :=
  { row with checksum := Checksum.ofParts [row.headers, row.payload] }

/-- Overwrites a column of the row at a checkpoint, and the checksum too if `reseal` says so. Says
how many rows there were. -/
def tamper (checkpoint : Checkpoint) (column : OctetColumn) (content : Bytes) (reseal : Bool)
    (db : Database) : Nat × Database :=
  let damage (row : Row) :=
    if row.checkpoint = checkpoint then
      let row := column.write content row
      if reseal then sealRow row else row
    else row
  ((db.rows.filter fun row => row.checkpoint = checkpoint).length,
    { db with rows := db.rows.map damage })

/-- Demands that stamps are unique from now on, if they are so far. -/
def requireUniqueStamps (db : Database) : Except Error Database :=
  if (db.rows.map Row.stamp).Nodup then .ok { db with stampsUnique := true }
  else .error (.sql "UNIQUE constraint failed: commits.commit_stamp_ms")

structure File where
  db : Database := {}
  /-- The database as the holder of the write lock has it. No store sees it, and it goes when the
  lock is given back. -/
  pending : Option Database := none
  /-- A store was opened on the file. It made the tables and keeps them, whatever is put into the
  file. -/
  inUse : Bool := false
  /-- The file was overwritten with text. -/
  overwritten : Bool := false

namespace File

/-- No store has what was in the file before the text. -/
def isText (file : File) : Bool := file.overwritten && !file.inUse

def notADatabase : Error := .sql "file is not a database"

/-- Opens a store on a file. -/
def open? (config : DatabaseConfig) (file : File) : Except Error Handle × File :=
  if file.isText then (.error notADatabase, file)
  else
    match DatabaseStore.open? config file.db with
    | (.ok handle, db) => (.ok handle, { file with db, inUse := true })
    | (.error error, db) => (.error error, { file with db })

/-- Takes the write lock for others, who hold it until they give it back. -/
def lock (file : File) : Except Error Unit × File :=
  if file.pending.isSome then
    (.error (.sql "cannot start a transaction within a transaction"), file)
  else if file.isText then (.error notADatabase, file)
  else
    (.ok (), { file with db := { file.db with writeLocked := true }, pending := some file.db })

/-- Gives the write lock back. What its holder did is undone. -/
def unlock (file : File) : Except Error Unit × File :=
  if file.pending.isSome then
    (.ok (), { file with db := { file.db with writeLocked := false }, pending := none })
  else (.error (.sql "cannot rollback - no transaction is active"), file)

/-- Lets others work with the tables, in their own copy while they hold the write lock. -/
def meddle {α : Type} (work : Database → Except Error (α × Database)) (file : File) :
    Except Error α × File :=
  if file.isText then (.error notADatabase, file)
  else if !file.inUse then (.error (.sql "no such table"), file)
  else
    match work (file.pending.getD file.db) with
    | .ok (answer, db) =>
      (.ok answer,
        if file.pending.isSome then { file with pending := some db } else { file with db })
    | .error error => (.error error, file)

end File
end CommitLog.Database
