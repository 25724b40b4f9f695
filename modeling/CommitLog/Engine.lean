import CommitLog.Database.Store
import CommitLog.Memory.Store

/-!
The two engines as one: a store in memory or in a database.
-/

namespace CommitLog

inductive Engine where
  | memory (store : MemoryStore)
  | database (store : DatabaseStore)

namespace Engine

/-- What the engine inside does. -/
def onStore {α : Type} (inMemory : MemoryStore → α × MemoryStore)
    (inDatabase : DatabaseStore → α × DatabaseStore) : Engine → α × Engine
  | .memory store =>
    let (answer, store) := inMemory store
    (answer, .memory store)
  | .database store =>
    let (answer, store) := inDatabase store
    (answer, .database store)

def next (feed : Cursor) (engine : Engine) : Option FeedItem × Cursor × Engine :=
  match engine with
  | .memory store =>
    let (item, feed) := store.next feed
    (item, feed, engine)
  | .database store =>
    let (item, feed) := store.next feed
    (item, feed, engine)

def remaining (feed : Cursor) : Engine → Nat × Nat
  | .memory store => store.remaining feed
  | .database store => store.remaining feed

theorem remaining_next {feed rest : Cursor} {engine after : Engine} {item : FeedItem}
    (h : next feed engine = (some item, rest, after)) :
    Remaining.Below (remaining rest after) (remaining feed engine) := by
  cases engine with
  | memory store =>
    simp only [next, Prod.mk.injEq] at h
    obtain ⟨found, left, rfl⟩ := h
    exact MemoryStore.remaining_next (Prod.ext found left)
  | database store =>
    simp only [next, Prod.mk.injEq] at h
    obtain ⟨found, left, rfl⟩ := h
    exact DatabaseStore.remaining_next (Prod.ext found left)

end Engine

instance : CommitStore Engine where
  Feed := Cursor
  prepare := Engine.onStore CommitStore.prepare CommitStore.prepare
  commit attempt := Engine.onStore (CommitStore.commit attempt) (CommitStore.commit attempt)
  getFrom key least most :=
    Engine.onStore (CommitStore.getFrom key least most) (CommitStore.getFrom key least most)
  openFeed scope after
    | .memory store => (store.openFeed scope after, .memory store)
    | .database store => (store.openFeed scope after, .database store)
  next := Engine.next
  markDispatched checkpoint :=
    Engine.onStore (CommitStore.markDispatched checkpoint) (CommitStore.markDispatched checkpoint)
  head key := Engine.onStore (CommitStore.head key) (CommitStore.head key)
  snapshot key most := Engine.onStore (CommitStore.snapshot key most) (CommitStore.snapshot key most)
  addSnapshot snapshot :=
    Engine.onStore (CommitStore.addSnapshot snapshot) (CommitStore.addSnapshot snapshot)
  streamsToSnapshot bucket threshold :=
    Engine.onStore (CommitStore.streamsToSnapshot bucket threshold)
      (CommitStore.streamsToSnapshot bucket threshold)
  deleteStream key := Engine.onStore (CommitStore.deleteStream key) (CommitStore.deleteStream key)
  purgeBucket bucket :=
    Engine.onStore (CommitStore.purgeBucket bucket) (CommitStore.purgeBucket bucket)
  purge := Engine.onStore CommitStore.purge CommitStore.purge
  dispose := Engine.onStore CommitStore.dispose CommitStore.dispose
  isDisposed
    | .memory store => store.disposed
    | .database store => store.handle.disposed
  remaining := Engine.remaining
  remaining_next := Engine.remaining_next

end CommitLog
