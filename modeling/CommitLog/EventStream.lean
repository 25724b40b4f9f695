import CommitLog.Store

/-!
A client's view of one stream: the events it knows to be committed, and the events and headers it
is about to commit. Nothing is locked in between. If another writer was first, the store says so,
and the view takes in what the other has written.
-/

namespace CommitLog

structure EventStream where
  key : StreamKey
  /-- The revision of the last committed event in the view. -/
  revision : UInt64 := 0
  /-- The sequence of the last commit in the view. -/
  sequence : UInt64 := 0
  committed : List Event := []
  /-- The headers of the commits in the view, where a later commit wins. -/
  committedHeaders : Headers := []
  uncommitted : List Event := []
  uncommittedHeaders : Headers := []
  /-- The ids of the commits in the view. -/
  ids : List CommitId := []

namespace EventStream

/-- A stream without history. -/
def create (key : StreamKey) : EventStream := { key }

def isDirty (stream : EventStream) : Bool := !stream.uncommitted.isEmpty

/-! ## Taking in commits -/

/-- Takes in events that start at a revision: those from `least` to `most` which the view does not
have yet. -/
def absorb (least most : UInt64) :
    UInt64 → List Event → EventStream → Except Overflow Unit × EventStream
  | _, [], stream => (.ok (), stream)
  | revision, event :: events, stream =>
    if most < revision then (.ok (), stream)
    else
      let stream := if least ≤ revision ∧ stream.revision < revision then
          { stream with committed := stream.committed ++ [event], revision }
        else stream
      match Overflow.sum revision 1 with
      | .error overflow => (.error overflow, stream)
      | .ok following => absorb least most following events stream

/-- Takes in commits as far as `most`. What was taken in before an overflow stays. -/
def populate (least most : UInt64) :
    List Commit → EventStream → Except Overflow Unit × EventStream
  | [], stream => (.ok (), stream)
  | commit :: commits, stream =>
    let stream := { stream with
      ids := stream.ids.insert commit.id
      sequence := max stream.sequence commit.sequence }
    match commit.firstRevision with
    | .error overflow => (.error overflow, stream)
    | .ok first =>
      if most < first then (.ok (), stream)
      else
        let stream := { stream with
          committedHeaders := stream.committedHeaders.merge commit.headers }
        match absorb least most first commit.events stream with
        | (.error overflow, stream) => (.error overflow, stream)
        | (.ok (), stream) => populate least most commits stream

/-! ## Opening -/

variable {σ : Type} [CommitStore σ]

/-- The events of a stream from one revision to another. A window that starts after the beginning
must hold an event. -/
def openWindow (key : StreamKey) (least most : UInt64) (store : σ) : Except Error EventStream × σ :=
  match CommitStore.getFrom key least most store with
  | (.error error, store) => (.error error, store)
  | (.ok commits, store) =>
    match populate least most commits (create key) with
    | (.error overflow, _) => (.error (.overflow overflow), store)
    | (.ok (), stream) =>
      if 0 < least ∧ stream.committed.isEmpty then (.error (.streamNotFound key), store)
      else (.ok stream, store)

/-- Learns sequence and id from the last of some commits. -/
def adoptLast (commits : List Commit) (stream : EventStream) : EventStream :=
  match commits.getLast? with
  | none => stream
  | some commit =>
    { stream with sequence := commit.sequence, ids := stream.ids.insert commit.id }

/-- A stream as it was when the snapshot was made, with the events since then up to `most`. A
snapshot does not say how many commits it covers, so without a later one the last is asked for. -/
def resume (snapshot : Snapshot) (most : UInt64) (store : σ) : Except Error EventStream × σ :=
  match Overflow.sum snapshot.revision 1 with
  | .error overflow => (.error (.overflow overflow), store)
  | .ok least =>
    match CommitStore.getFrom snapshot.key least most store with
    | (.error error, store) => (.error error, store)
    | (.ok commits, store) =>
      match populate least most commits
          { create snapshot.key with revision := snapshot.revision } with
      | (.error overflow, _) => (.error (.overflow overflow), store)
      | (.ok (), stream) =>
        if commits.isEmpty then
          match CommitStore.getFrom snapshot.key snapshot.revision snapshot.revision store with
          | (.error error, store) => (.error error, store)
          | (.ok covering, store) => (.ok (stream.adoptLast covering), store)
        else (.ok stream, store)

/-! ## Changes -/

/-- An event without a body is ignored. -/
def add (event : Event) (stream : EventStream) : EventStream :=
  if event.isEmpty then stream
  else { stream with uncommitted := stream.uncommitted ++ [event] }

def addHeader (key : String) (value : Json) (stream : EventStream) : EventStream :=
  { stream with uncommittedHeaders := stream.uncommittedHeaders.insert key value }

/-- Removes a header of the next commit and says what it was. -/
def removeHeader (key : String) (stream : EventStream) : Option Json × EventStream :=
  (stream.uncommittedHeaders.find? key,
    { stream with uncommittedHeaders := stream.uncommittedHeaders.erase key })

def clearChanges (stream : EventStream) : EventStream :=
  { stream with uncommitted := [], uncommittedHeaders := [] }

/-- The changes as an attempt to commit them, `now` milliseconds after 1970. -/
def attempt (id : CommitId) (now : UInt64) (stream : EventStream) : Except Overflow Attempt := do
  let revision ← Overflow.sum stream.revision stream.uncommitted.length
  let sequence ← Overflow.sum stream.sequence 1
  return {
    bucket := stream.key.bucket
    stream := stream.key.stream
    revision, id, sequence
    stamp := now
    headers := stream.uncommittedHeaders
    events := stream.uncommitted }

/-- Takes in commits beyond the view. -/
def follow (commits : List Commit) (stream : EventStream) : Except Overflow Unit × EventStream :=
  match Overflow.sum stream.revision 1 with
  | .error overflow => (.error overflow, stream)
  | .ok least => populate least maxRevision commits stream

/-- Takes in what others have committed. A store that cannot be read leaves the view as it is. -/
def refresh (stream : EventStream) (store : σ) : Except Overflow Unit × EventStream × σ :=
  match Overflow.sum stream.revision 1 with
  | .error overflow => (.error overflow, stream, store)
  | .ok least =>
    match CommitStore.getFrom stream.key least maxRevision store with
    | (.error (.overflow overflow), store) => (.error overflow, stream, store)
    | (.error _, store) => (.ok (), stream, store)
    | (.ok commits, store) =>
      let (outcome, stream) := populate least maxRevision commits stream
      (outcome, stream, store)

/-- Commits the changes as one commit, if there are any. After a conflict the changes are still
there and the view is refreshed; after any other error nothing has changed. -/
def commitChanges (id : CommitId) (now : UInt64) (stream : EventStream) (store : σ) :
    Except Error (Option Commit) × EventStream × σ :=
  if stream.uncommitted.isEmpty then (.ok none, stream, store)
  else if stream.ids.contains id then
    (.error (.duplicateCommit stream.key id), stream, store)
  else
    match stream.attempt id now with
    | .error overflow => (.error (.overflow overflow), stream, store)
    | .ok attempt =>
      match CommitStore.commit attempt store with
      | (.ok commit, store) =>
        match stream.follow [commit] with
        | (.error overflow, stream) => (.error (.overflow overflow), stream, store)
        | (.ok (), stream) => (.ok (some commit), stream.clearChanges, store)
      | (.error (.concurrency key sequence), store) =>
        match stream.refresh store with
        | (.error overflow, stream, store) => (.error (.overflow overflow), stream, store)
        | (.ok (), stream, store) => (.error (.concurrency key sequence), stream, store)
      | (.error error, store) => (.error error, stream, store)

end EventStream
end CommitLog
