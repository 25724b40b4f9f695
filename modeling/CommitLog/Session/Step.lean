import CommitLog.Database.File
import CommitLog.Drill.Run
import CommitLog.EventStream
import CommitLog.Memory.Store

/-!
The steps of a session and their results. A session works with several stores, each in a numbered
slot, and with streams and feeds that it calls by name.
-/

namespace CommitLog.Session

/-- What is to be opened in a slot. -/
inductive EngineChoice where
  | memory (config : MemoryConfig)
  /-- A database of the store's own. -/
  | privateDatabase (config : DatabaseConfig)
  /-- The database file of the session, which its stores share. -/
  | sharedFile (config : DatabaseConfig)
  /-- A file where none can be. -/
  | missingPlace

/-- What is asked of a store. -/
inductive Request where
  | prepare
  | commit (attempt : Attempt)
  /-- So many commits of one event each, with sequences from `first`. -/
  | fill (key : StreamKey) (first count : Nat)
  | getFrom (key : StreamKey) (least most : UInt64)
  | feed (scope : Scope) (after : Checkpoint)
  | markDispatched (checkpoint : Checkpoint)
  | head (key : StreamKey)
  | addSnapshot (snapshot : Snapshot)
  | snapshot (key : StreamKey) (most : UInt64)
  | streamsToSnapshot (bucket : BucketId) (threshold : UInt64)
  | deleteStream (key : StreamKey)
  | purgeBucket (bucket : BucketId)
  | purge
  | dispose
  | isDisposed
  /-- Begins or ends an outage. -/
  | setOutage (down : Bool)
  | drill (drill : Drill)

/-- How a stream is opened. -/
inductive Opening where
  | fresh (key : StreamKey)
  | window (key : StreamKey) (least most : UInt64)
  | snapshot (snapshot : Snapshot) (most : UInt64)

/-- What is done with a stream. -/
inductive Change where
  | add (event : Event)
  | setHeader (key : String) (value : Json)
  | removeHeader (key : String)
  | clear
  | commit (id : CommitId) (now : UInt64)
  | look

/-- What others do to the database in the file. All of it that they do between `lock` and `unlock`
is undone. -/
inductive Intrusion where
  | tamper (checkpoint : Checkpoint) (column : Database.OctetColumn) (content : Bytes)
      (reseal : Bool)
  | setVersion (version : Option String)
  | getVersion
  | lock
  | unlock
  /-- Demands that stamps are unique from now on. -/
  | requireUniqueStamps

inductive Step where
  | openStore (slot : Nat) (engine : EngineChoice) (hooks : List (Hook (List Hook.Record)))
  | request (slot : Nat) (request : Request)
  | openFeed (slot : Nat) (name : String) (scope : Scope) (after : Checkpoint)
  | takeItems (name : String) (count : Nat)
  /-- Steps on a stream may leave out its name, which then is `Session.unnamed`. -/
  | openStream (slot : Nat) (name : Option String) (opening : Opening)
  | changeStream (name : Option String) (change : Change)
  | intrude (intrusion : Intrusion)
  /-- Puts text into the file. -/
  | overwriteFile

/-- What a step answers when it succeeds. -/
inductive Answer where
  | done
  | flag (value : Bool)
  | commit (commit : Commit)
  | maybeCommit (commit : Option Commit)
  | commits (commits : List Commit)
  /-- Items of a feed, and whether its end was seen. -/
  | items (items : List FeedItem) (ended : Bool)
  | checkpoint (checkpoint : Checkpoint)
  | head (head : Option StreamHead)
  | heads (heads : List StreamHead)
  | snapshot (snapshot : Option Snapshot)
  | header (value : Option Json)
  | stream (stream : EventStream)
  | count (rows : Nat)
  | version (version : Option String)
  | report (report : Drill.Report)

inductive Fault where
  /-- A slot, stream or feed that is not there, or a slot that is taken. -/
  | badStep
  | error (error : Error)

structure Result where
  outcome : Except Fault Answer
  /-- The stream that the step called by name, as it is afterwards. -/
  stream : Option EventStream := none
  /-- What the hooks wrote down. -/
  records : List Hook.Record := []

end CommitLog.Session
