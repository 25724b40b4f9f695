import CommitLog.Database.RecentCommits
import CommitLog.Database.Tables
import CommitLog.Store

/-!
A store in a database. What a store has of its own, its page size, its recent commits and whether
it is disposed, is its `Handle`; several stores may share one database, each with its own handle.
-/

namespace CommitLog

structure DatabaseConfig where
  /-- Rows of a feed that are fetched at a time. -/
  pageSize : Nat := 512
  /-- Milliseconds that a write waits for the lock. -/
  busyTimeout : Nat := 5000
  /-- How many recent commits are remembered. -/
  recentCommits : Nat := 10000

structure Handle where
  pageSize : Nat
  recent : RecentCommits
  disposed : Bool := false

def Handle.create (config : DatabaseConfig) : Handle where
  pageSize := config.pageSize
  recent := { bound := config.recentCommits }

/-- A page size of zero counts as one. -/
def Handle.pageLimit (handle : Handle) : Nat := max 1 handle.pageSize

structure DatabaseStore where
  db : Database
  handle : Handle

namespace DatabaseStore

/-- A store on a database, if the database has the right version or none. -/
def open? (config : DatabaseConfig) (db : Database) : Except Error Handle × Database :=
  match db.verifyVersion with
  | (.ok (), db) => (.ok (Handle.create config), db)
  | (.error error, db) => (.error error, db)

def ensureOpen (store : DatabaseStore) : Except Error Unit :=
  if store.handle.disposed then .error .disposed else .ok ()

/-- A query, unless the store is disposed. -/
def query {α : Type} (ask : Database → Except Error α) (store : DatabaseStore) : Except Error α := do
  store.ensureOpen
  ask store.db

/-- A transaction that writes, unless the store is disposed; `done` is what the store makes of its
success. -/
def update {α : Type} (change : Database → Except Error (α × Database)) (done : Handle → Handle)
    (store : DatabaseStore) : Except Error α × DatabaseStore :=
  match store.ensureOpen with
  | .error error => (.error error, store)
  | .ok () =>
    match store.db.write change with
    | (.ok answer, db) => (.ok answer, ⟨db, done store.handle⟩)
    | (.error error, db) => (.error error, { store with db })

/-! ## Commits -/

def commitKey (attempt : Attempt) : CommitKey := ⟨attempt.key, attempt.id⟩

/-- What can be said about an attempt without the database. -/
def check (attempt : Attempt) (store : DatabaseStore) : Except Error Unit := do
  store.ensureOpen
  attempt.validate
  if store.handle.recent.contains (commitKey attempt) then throw attempt.duplicate

def commit (attempt : Attempt) (store : DatabaseStore) : Except Error Commit × DatabaseStore :=
  match store.check attempt with
  | .error error => (.error error, store)
  | .ok () =>
    let remember (handle : Handle) :=
      { handle with recent := handle.recent.insert (commitKey attempt) }
    match store.update (Database.append attempt) remember with
    | (.ok checkpoint, store) => (.ok (attempt.toCommit checkpoint), store)
    | (.error error, store) => (.error error, store)

def getFrom (key : StreamKey) (least most : UInt64) (store : DatabaseStore) :
    Except Error (List Commit) :=
  store.query fun db => Row.decodeAll (db.range key least most)

def markDispatched (checkpoint : Checkpoint) (store : DatabaseStore) :
    Except Error Unit × DatabaseStore :=
  store.update (fun db => .ok ((), db.markDispatched checkpoint)) id

/-! ## Feeds -/

def openFeed (scope : Scope) (after : Checkpoint) (store : DatabaseStore) : Except Error Cursor := do
  store.ensureOpen
  return Cursor.start scope after

/-- The next page of a feed. A row that cannot be read fails its page. -/
def page (cursor : Cursor) (store : DatabaseStore) : Except Error (List Commit) :=
  store.query fun db =>
    Row.decodeAll ((db.later cursor.scope cursor.after).take store.handle.pageLimit)

/-- A short page is the last, and so is one that fails. -/
def next (cursor : Cursor) (store : DatabaseStore) : Option FeedItem × Cursor :=
  if cursor.page.isEmpty ∧ cursor.exhausted = false then
    match store.page cursor with
    | .ok commits =>
      Cursor.pop { cursor with
        exhausted := commits.length < store.handle.pageLimit
        after := (commits.getLast?.map fun commit => commit.checkpoint).getD cursor.after
        page := commits }
    | .error error => (some (.error error), { cursor with exhausted := true })
  else cursor.pop

/-! ## Heads and snapshots -/

def head (key : StreamKey) (store : DatabaseStore) : Except Error (Option StreamHead) :=
  store.query fun db => .ok ((db.head? key).map HeadRow.toHead)

def snapshot (key : StreamKey) (most : UInt64) (store : DatabaseStore) :
    Except Error (Option Snapshot) :=
  store.query fun db => .ok ((db.snapshot? key most).map SnapshotRow.toSnapshot)

def addSnapshot (snapshot : Snapshot) (store : DatabaseStore) : Except Error Bool × DatabaseStore :=
  store.update (fun db => .ok (db.addSnapshot snapshot)) id

def streamsToSnapshot (bucket : BucketId) (threshold : UInt64) (store : DatabaseStore) :
    Except Error (List StreamHead) :=
  store.query fun db => .ok ((db.streamsToSnapshot bucket threshold).map HeadRow.toHead)

/-! ## Removal -/

def remove (gone : StreamKey → Bool) (store : DatabaseStore) : Except Error Unit × DatabaseStore :=
  store.update (fun db => .ok ((), db.removeWhere gone))
    fun handle => { handle with recent := handle.recent.forget gone }

def dispose (store : DatabaseStore) : DatabaseStore :=
  { store with handle := { store.handle with disposed := true } }

/-! ## What is left of a feed -/

def remaining (cursor : Cursor) (store : DatabaseStore) : Nat × Nat :=
  cursor.remaining (store.db.later cursor.scope cursor.after).length

theorem decode_checkpoint {row : Row} {commit : Commit} (h : row.decode = .ok commit) :
    commit.checkpoint = row.checkpoint := by
  unfold Row.decode at h
  split at h
  · split at h
    · cases h; rfl
    · contradiction
    · contradiction
  · contradiction

theorem decodeAll_mem {rows : List Row} {commits : List Commit} (h : Row.decodeAll rows = .ok commits)
    {commit : Commit} (found : commit ∈ commits) :
    ∃ row ∈ rows, row.checkpoint = commit.checkpoint := by
  induction rows generalizing commits with
  | nil => cases h; contradiction
  | cons row rest ih =>
    unfold Row.decodeAll at h
    cases first : row.decode with
    | error => simp [first, bind, Except.bind] at h
    | ok head =>
      cases others : Row.decodeAll rest with
      | error => simp [first, others, bind, Except.bind] at h
      | ok tail =>
        simp only [first, others, bind, Except.bind, pure, Except.pure, Except.ok.injEq] at h
        subst h
        rcases List.mem_cons.1 found with rfl | found
        · exact ⟨row, List.mem_cons_self, (decode_checkpoint first).symm⟩
        · obtain ⟨row, inRest, same⟩ := ih others found
          exact ⟨row, List.mem_cons_of_mem _ inRest, same⟩

theorem mem_later {db : Database} {scope : Scope} {after : Checkpoint} {row : Row} :
    row ∈ db.later scope after ↔
      row ∈ db.rows ∧ after < row.checkpoint ∧ row.inScope scope = true := by
  simp [Database.later]

theorem length_later_lt {db : Database} {scope : Scope} {before : Checkpoint} {row : Row}
    (h : row ∈ db.later scope before) :
    (db.later scope row.checkpoint).length < (db.later scope before).length := by
  have ahead := (mem_later.1 h).2.1
  simp only [Database.later, List.length_mergeSort]
  have sub : (db.rows.filter fun other => row.checkpoint < other.checkpoint && other.inScope scope) =
      (db.rows.filter fun other => before < other.checkpoint && other.inScope scope).filter
        fun other => row.checkpoint < other.checkpoint := by
    rw [List.filter_filter]
    refine List.filter_congr fun other _ => ?_
    rw [Checkpoint.lt_iff] at ahead
    simp only [Checkpoint.lt_iff]
    by_cases far : row.checkpoint.toInt < other.checkpoint.toInt
    · simp [far, show before.toInt < other.checkpoint.toInt by omega]
    · simp [far]
  rw [sub, List.length_filter_lt_length_iff_exists]
  refine ⟨row, ?_, by simp [Checkpoint.lt_iff]⟩
  simpa [Database.later] using h

theorem remaining_next {cursor rest : Cursor} {store : DatabaseStore} {item : FeedItem}
    (h : next cursor store = (some item, rest)) :
    Remaining.Below (remaining rest store) (remaining cursor store) := by
  unfold next at h
  split at h
  · next needed =>
    refine .left _ _ ?_
    split at h
    · next commits read =>
      have popped := Cursor.pop_some h
      simp only [needed.2, popped]
      split
      · simp
      · have some_left : commits ≠ [] := List.ne_nil_of_length_pos (Nat.zero_lt_of_lt popped.1)
        have rows_read : Row.decodeAll
            ((store.db.later cursor.scope cursor.after).take store.handle.pageLimit) = .ok commits := by
          unfold page query at read
          cases ready : store.ensureOpen with
          | error => simp [ready, bind, Except.bind] at read
          | ok => simpa [ready, bind, Except.bind] using read
        obtain ⟨row, found, same⟩ :=
          decodeAll_mem rows_read (List.getLast_mem some_left)
        have shrunk := length_later_lt (List.mem_of_mem_take found)
        rw [List.getLast?_eq_some_getLast some_left]
        simpa [← same] using shrunk
    · cases h
      simp [needed.2]
  · have popped := Cursor.pop_some h
    simp only [remaining, Cursor.remaining, popped]
    exact .right _ popped.1

end DatabaseStore

instance : CommitStore DatabaseStore where
  Feed := Cursor
  prepare store := (store.ensureOpen, store)
  commit := DatabaseStore.commit
  getFrom key least most store := (store.getFrom key least most, store)
  openFeed scope after store := (store.openFeed scope after, store)
  next cursor store :=
    let (item, cursor) := DatabaseStore.next cursor store
    (item, cursor, store)
  markDispatched := DatabaseStore.markDispatched
  head key store := (store.head key, store)
  snapshot key most store := (store.snapshot key most, store)
  addSnapshot := DatabaseStore.addSnapshot
  streamsToSnapshot bucket threshold store := (store.streamsToSnapshot bucket threshold, store)
  deleteStream key := DatabaseStore.remove fun other => other = key
  purgeBucket bucket := DatabaseStore.remove fun other => other.bucket = bucket
  purge := DatabaseStore.remove fun _ => true
  dispose store := (.ok (), store.dispose)
  isDisposed store := store.handle.disposed
  remaining := DatabaseStore.remaining
  remaining_next := by
    intro cursor store item rest after h
    simp only [Prod.mk.injEq] at h
    obtain ⟨found, left, rfl⟩ := h
    exact DatabaseStore.remaining_next (Prod.ext found left)

end CommitLog
