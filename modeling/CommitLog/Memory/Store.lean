import CommitLog.Memory.HeadQueue
import CommitLog.Store

/-!
A store in memory: the commits of each stream, the feed of all commits, the dispatched checkpoints,
the snapshots and the heads. The last checkpoint only grows, whatever is removed.
-/

namespace CommitLog

/-- How many commits a feed looks at for a page. -/
def Memory.scanLimit : Nat := 256

structure MemoryConfig where
  headQueueBound : Nat := 1024
  /-- Milliseconds. -/
  shutdownTimeout : Nat := 5000

/-- The commits of each stream, in order. -/
abbrev StreamLogs := List (StreamKey × List Commit)

namespace StreamLogs

def log (logs : StreamLogs) (key : StreamKey) : List Commit :=
  match List.find? (fun entry => entry.1 = key) logs with
  | some entry => entry.2
  | none => []

def push (commit : Commit) : StreamLogs → StreamLogs
  | [] => [(commit.key, [commit])]
  | (key, log) :: rest =>
    if key = commit.key then (key, log ++ [commit]) :: rest else (key, log) :: push commit rest

end StreamLogs

/-- The commits that have an event from one revision to another. -/
def Commit.within (least most : UInt64) : List Commit → Except Overflow (List Commit)
  | [] => return []
  | commit :: rest => do
    let hit ← commit.intersects least most
    let hits ← within least most rest
    return if hit then commit :: hits else hits

structure MemoryStore where
  streams : StreamLogs := []
  /-- All commits, in the order of their checkpoints. -/
  feed : List Commit := []
  lastCheckpoint : Checkpoint := Checkpoint.start
  dispatched : List Checkpoint := []
  snapshots : List Snapshot := []
  headQueue : Memory.HeadQueue := { bound := 1024 }
  disposed : Bool := false

namespace MemoryStore

def create (config : MemoryConfig) : MemoryStore :=
  { headQueue := { bound := config.headQueueBound } }

def log (store : MemoryStore) (key : StreamKey) : List Commit := store.streams.log key

def ensureOpen (store : MemoryStore) : Except Error Unit :=
  if store.disposed then .error .disposed else .ok ()

def settled (store : MemoryStore) : MemoryStore :=
  { store with headQueue := store.headQueue.settle }

/-! ## Commits -/

/-- Whether a stream can take an attempt as its next commit. -/
def check (attempt : Attempt) (store : MemoryStore) : Except Error Unit := do
  store.ensureOpen
  attempt.validate
  let log := store.log attempt.key
  if log.any fun commit => commit.id = attempt.id then throw attempt.duplicate
  attempt.checkFollows (UInt64.ofNat log.length)
    ((log.getLast?.map fun commit => commit.revision).getD 0)

/-- Makes a commit part of its stream and of the feed. -/
def publish (commit : Commit) (store : MemoryStore) : MemoryStore :=
  { store with
    streams := store.streams.push commit
    feed := store.feed ++ [commit]
    lastCheckpoint := commit.checkpoint
    headQueue := store.headQueue.record ⟨commit.key, commit.revision⟩ }

def commit (attempt : Attempt) (store : MemoryStore) : Except Error Commit × MemoryStore :=
  match store.check attempt with
  | .error error => (.error error, store)
  | .ok () =>
    match store.lastCheckpoint.next with
    | .error overflow => (.error (.overflow overflow), store)
    | .ok checkpoint =>
      let commit := attempt.toCommit checkpoint
      (.ok commit, store.publish commit)

def getFrom (key : StreamKey) (least most : UInt64) (store : MemoryStore) :
    Except Error (List Commit) := do
  store.ensureOpen
  Commit.within least most (store.log key)

/-! ## Feeds -/

def openFeed (scope : Scope) (after : Checkpoint) (store : MemoryStore) : Except Error Cursor := do
  store.ensureOpen
  return Cursor.start scope after

def wanted (store : MemoryStore) (scope : Scope) (commit : Commit) : Bool :=
  match scope with
  | .all => true
  | .bucket bucket => commit.bucket = bucket
  | .undispatched => !store.dispatched.contains commit.checkpoint

/-- The part of the feed after a checkpoint. -/
def later (store : MemoryStore) (after : Checkpoint) : List Commit :=
  store.feed.filter fun commit => after < commit.checkpoint

/-- What lies after a commit of the feed, among what lies after a checkpoint before it. -/
theorem later_later {store : MemoryStore} {before : Checkpoint} {commit : Commit}
    (h : commit ∈ store.later before) :
    store.later commit.checkpoint =
      (store.later before).filter fun other => commit.checkpoint < other.checkpoint := by
  have ahead : before.toInt < commit.checkpoint.toInt := by
    simpa [later, Checkpoint.lt_iff] using (List.mem_filter.1 h).2
  simp only [later, List.filter_filter]
  refine List.filter_congr fun other _ => ?_
  simp only [Checkpoint.lt_iff]
  by_cases far : commit.checkpoint.toInt < other.checkpoint.toInt
  · simp [far, show before.toInt < other.checkpoint.toInt by omega]
  · simp [far]

theorem length_later_lt {store : MemoryStore} {before : Checkpoint} {commit : Commit}
    (h : commit ∈ store.later before) :
    (store.later commit.checkpoint).length < (store.later before).length := by
  rw [later_later h, List.length_filter_lt_length_iff_exists]
  exact ⟨commit, h, by simp [Checkpoint.lt_iff]⟩

/-- Looks at chunks of the feed until one holds a wanted commit or the feed ends. -/
def refill (cursor : Cursor) (store : MemoryStore) : Cursor :=
  let chunk := (store.later cursor.after).take Memory.scanLimit
  let page := chunk.filter (store.wanted cursor.scope)
  match _last : chunk.getLast? with
  | none => { cursor with page, exhausted := true }
  | some last =>
    let cursor := { cursor with after := last.checkpoint, page }
    if chunk.length < Memory.scanLimit then { cursor with exhausted := true }
    else if page.isEmpty then refill cursor store
    else cursor
termination_by (store.later cursor.after).length
decreasing_by
  exact length_later_lt (List.mem_of_mem_take (List.mem_of_getLast? _last))

def next (cursor : Cursor) (store : MemoryStore) : Option FeedItem × Cursor :=
  if cursor.page.isEmpty ∧ cursor.exhausted = false then (refill cursor store).pop
  else cursor.pop

def markDispatched (checkpoint : Checkpoint) (store : MemoryStore) :
    Except Error Unit × MemoryStore :=
  match store.ensureOpen with
  | .error error => (.error error, store)
  | .ok () =>
    if store.feed.any fun commit => commit.checkpoint = checkpoint then
      (.ok (), { store with dispatched := store.dispatched.insert checkpoint })
    else (.ok (), store)

/-! ## Heads and snapshots -/

def head (key : StreamKey) (store : MemoryStore) : Except Error (Option StreamHead) × MemoryStore :=
  match store.ensureOpen with
  | .error error => (.error error, store)
  | .ok () => (.ok (store.settled.headQueue.find? key), store.settled)

/-- The snapshot of the greatest revision, the first of them if there are more. -/
def newest (snapshots : List Snapshot) : Option Snapshot :=
  snapshots.foldl (fun best snapshot =>
    match best with
    | none => some snapshot
    | some other => if other.revision < snapshot.revision then some snapshot else best) none

def snapshot (key : StreamKey) (most : UInt64) (store : MemoryStore) :
    Except Error (Option Snapshot) := do
  store.ensureOpen
  return newest (store.snapshots.filter fun snapshot =>
    snapshot.key = key ∧ snapshot.revision ≤ most)

/-- Raises the snapshot revision of a head. -/
def raiseSnapshot (snapshot : Snapshot) (head : StreamHead) : StreamHead :=
  if head.key = snapshot.key then { head with snapshot := max head.snapshot snapshot.revision }
  else head

def addSnapshot (snapshot : Snapshot) (store : MemoryStore) : Except Error Bool × MemoryStore :=
  match store.ensureOpen with
  | .error error => (.error error, store)
  | .ok () =>
    let store := store.settled
    if (store.headQueue.find? snapshot.key).isNone then (.ok false, store)
    else if store.snapshots.any fun other =>
        other.key = snapshot.key ∧ other.revision = snapshot.revision then
      (.ok false, store)
    else
      (.ok true, { store with
        snapshots := store.snapshots ++ [snapshot]
        headQueue := { store.headQueue with
          heads := store.headQueue.heads.map (raiseSnapshot snapshot) } })

/-- More events since the newest snapshot come first, then the lesser name. -/
def dueOrder (a b : StreamHead) : Bool :=
  b.unsnapshotted < a.unsnapshotted ||
    (a.unsnapshotted = b.unsnapshotted && a.key.stream.text ≤ b.key.stream.text)

def streamsToSnapshot (bucket : BucketId) (threshold : UInt64) (store : MemoryStore) :
    Except Error (List StreamHead) × MemoryStore :=
  match store.ensureOpen with
  | .error error => (.error error, store)
  | .ok () =>
    let store := store.settled
    let due := store.headQueue.heads.filter fun head =>
      head.key.bucket = bucket ∧ threshold ≤ head.unsnapshotted
    (.ok (due.mergeSort dueOrder), store)

/-! ## Removal -/

/-- Forgets all that belongs to the streams of which `gone` holds, except the last checkpoint. -/
def removeWhere (gone : StreamKey → Bool) (store : MemoryStore) : MemoryStore :=
  let store := store.settled
  let removed := store.feed.filter fun commit => gone commit.key
  { store with
    streams := List.filter (fun entry => !gone entry.1) store.streams
    feed := store.feed.filter fun commit => !gone commit.key
    dispatched := store.dispatched.filter fun checkpoint =>
      !removed.any fun commit => commit.checkpoint = checkpoint
    headQueue := { store.headQueue with
      heads := store.headQueue.heads.filter fun head => !gone head.key }
    snapshots := store.snapshots.filter fun snapshot => !gone snapshot.key }

def remove (gone : StreamKey → Bool) (store : MemoryStore) : Except Error Unit × MemoryStore :=
  match store.ensureOpen with
  | .error error => (.error error, store)
  | .ok () => (.ok (), store.removeWhere gone)

def dispose (store : MemoryStore) : MemoryStore :=
  if store.disposed then store else { store.settled with disposed := true }

/-! ## What is left of a feed -/

def remaining (cursor : Cursor) (store : MemoryStore) : Nat × Nat :=
  cursor.remaining (store.later cursor.after).length

/-- Looking for a page ends the feed or gets ahead in it. -/
theorem refill_ahead (cursor : Cursor) (store : MemoryStore) (unfinished : cursor.exhausted = false) :
    Prod.fst (remaining (refill cursor store) store) < Prod.fst (remaining cursor store) := by
  fun_induction refill cursor store with
  | case1 => simp [remaining, Cursor.remaining, unfinished]
  | case2 => simp [remaining, Cursor.remaining, unfinished]
  | case3 cursor chunk page last found cursor' _ _ ih =>
    have ahead := length_later_lt (List.mem_of_mem_take (List.mem_of_getLast? found))
    have := ih unfinished
    simp only [remaining, Cursor.remaining, unfinished, cursor'] at this ⊢
    simp only [Bool.false_eq_true, if_false] at this ⊢
    omega
  | case4 cursor chunk page last found cursor' =>
    have ahead := length_later_lt (List.mem_of_mem_take (List.mem_of_getLast? found))
    simp only [remaining, Cursor.remaining, unfinished, cursor']
    simpa using ahead

theorem remaining_next {cursor rest : Cursor} {store : MemoryStore} {item : FeedItem}
    (h : next cursor store = (some item, rest)) :
    Remaining.Below (remaining rest store) (remaining cursor store) := by
  unfold next at h
  split at h
  · next needed =>
    have ahead := refill_ahead cursor store needed.2
    have popped := Cursor.pop_some h
    refine .left _ _ ?_
    simpa [remaining, Cursor.remaining, popped] using ahead
  · have popped := Cursor.pop_some h
    simp only [remaining, Cursor.remaining, popped]
    exact .right _ popped.1

end MemoryStore

instance : CommitStore MemoryStore where
  Feed := Cursor
  prepare store := (store.ensureOpen, store)
  commit := MemoryStore.commit
  getFrom key least most store := (store.getFrom key least most, store)
  openFeed scope after store := (store.openFeed scope after, store)
  next cursor store :=
    let (item, cursor) := MemoryStore.next cursor store
    (item, cursor, store)
  markDispatched := MemoryStore.markDispatched
  head := MemoryStore.head
  snapshot key most store := (store.snapshot key most, store)
  addSnapshot := MemoryStore.addSnapshot
  streamsToSnapshot := MemoryStore.streamsToSnapshot
  deleteStream key := MemoryStore.remove fun other => other = key
  purgeBucket bucket := MemoryStore.remove fun other => other.bucket = bucket
  purge := MemoryStore.remove fun _ => true
  dispose store := (.ok (), store.dispose)
  isDisposed := MemoryStore.disposed
  remaining := MemoryStore.remaining
  remaining_next := by
    intro cursor store item rest after h
    simp only [Prod.mk.injEq] at h
    obtain ⟨found, left, rfl⟩ := h
    exact MemoryStore.remaining_next (Prod.ext found left)

end CommitLog
