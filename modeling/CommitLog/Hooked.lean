import CommitLog.Hook
import CommitLog.Store

/-!
A store behind hooks, which is a store again. Reads pass through the hooks' selection, and an item
of a feed that is an error keeps its place. A commit is announced before and after, a removal after
it has succeeded.
-/

namespace CommitLog

structure Hooked (σ ρ : Type) where
  inner : σ
  hooks : List (Hook ρ)
  memory : ρ

namespace Hooked

/-- Changes the store behind the hooks, which are not told. -/
def beneath {σ ρ : Type} (change : σ → σ) (store : Hooked σ ρ) : Hooked σ ρ :=
  { store with inner := change store.inner }

variable {σ ρ : Type} [CommitStore σ]

/-- An operation of the store behind the hooks. -/
def onInner {α : Type} (operation : σ → α × σ) (store : Hooked σ ρ) : α × Hooked σ ρ :=
  let (answer, inner) := operation store.inner
  (answer, { store with inner })

/-- An operation that the hooks are told of when it has succeeded. -/
def announced {α : Type} (operation : σ → Except Error α × σ) (tell : α → Hook ρ → ρ → ρ)
    (store : Hooked σ ρ) : Except Error α × Hooked σ ρ :=
  match operation store.inner with
  | (.error error, inner) => (.error error, { store with inner })
  | (.ok answer, inner) =>
    (.ok answer, { store with inner, memory := Hook.tellAll (tell answer) store.hooks store.memory })

def commit (attempt : Attempt) (store : Hooked σ ρ) : Except Error Commit × Hooked σ ρ :=
  match Hook.preCommitAll store.hooks attempt store.memory with
  | (.error error, memory) => (.error error, { store with memory })
  | (.ok (), memory) =>
    announced (CommitStore.commit attempt) (fun commit hook => hook.postCommit commit)
      { store with memory }

def getFrom (key : StreamKey) (least most : UInt64) (store : Hooked σ ρ) :
    Except Error (List Commit) × Hooked σ ρ :=
  match CommitStore.getFrom key least most store.inner with
  | (.error error, inner) => (.error error, { store with inner })
  | (.ok commits, inner) =>
    let (commits, memory) := Hook.selectEach store.hooks commits store.memory
    (.ok commits, { store with inner, memory })

/-- Takes items from the feed until one is not hidden. -/
def next (feed : CommitStore.Feed σ) (store : Hooked σ ρ) :
    Option FeedItem × CommitStore.Feed σ × Hooked σ ρ :=
  match _found : CommitStore.next feed store.inner with
  | (none, rest, inner) => (none, rest, { store with inner })
  | (some (.error error), rest, inner) => (some (.error error), rest, { store with inner })
  | (some (.ok commit), rest, inner) =>
    match Hook.selectAll store.hooks commit store.memory with
    | (some commit, memory) => (some (.ok commit), rest, { store with inner, memory })
    | (none, memory) => next rest { store with inner, memory }
termination_by CommitStore.remaining feed store.inner
decreasing_by exact CommitStore.remaining_next _found

theorem remaining_next {feed rest : CommitStore.Feed σ} {store after : Hooked σ ρ} {item : FeedItem}
    (h : next feed store = (some item, rest, after)) :
    Remaining.Below (CommitStore.remaining rest after.inner)
      (CommitStore.remaining feed store.inner) := by
  fun_induction next feed store with
  | case1 => simp at h
  | case2 feed store error _ _ found =>
    simp only [Prod.mk.injEq] at h
    obtain ⟨-, rfl, rfl⟩ := h
    exact CommitStore.remaining_next found
  | case3 feed store commit _ _ found =>
    simp only [Prod.mk.injEq] at h
    obtain ⟨-, rfl, rfl⟩ := h
    exact CommitStore.remaining_next found
  | case4 feed store commit _ _ found _ _ ih =>
    exact (ih h).trans (CommitStore.remaining_next found)

end Hooked

instance {σ ρ : Type} [CommitStore σ] : CommitStore (Hooked σ ρ) where
  Feed := CommitStore.Feed σ
  prepare := Hooked.onInner CommitStore.prepare
  commit := Hooked.commit
  getFrom := Hooked.getFrom
  openFeed scope after := Hooked.onInner (CommitStore.openFeed scope after)
  next := Hooked.next
  markDispatched checkpoint := Hooked.onInner (CommitStore.markDispatched checkpoint)
  head key := Hooked.onInner (CommitStore.head key)
  snapshot key most := Hooked.onInner (CommitStore.snapshot key most)
  addSnapshot snapshot := Hooked.onInner (CommitStore.addSnapshot snapshot)
  streamsToSnapshot bucket threshold :=
    Hooked.onInner (CommitStore.streamsToSnapshot bucket threshold)
  deleteStream key :=
    Hooked.announced (CommitStore.deleteStream key) fun _ hook => hook.onDeleteStream key
  purgeBucket bucket :=
    Hooked.announced (CommitStore.purgeBucket bucket) fun _ hook => hook.onPurge (some bucket)
  purge := Hooked.announced CommitStore.purge fun _ hook => hook.onPurge none
  dispose := Hooked.onInner CommitStore.dispose
  isDisposed store := CommitStore.isDisposed store.inner
  remaining feed store := CommitStore.remaining feed store.inner
  remaining_next := Hooked.remaining_next
end CommitLog
