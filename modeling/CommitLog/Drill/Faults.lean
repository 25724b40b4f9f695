import CommitLog.Store

/-!
A store with planned faults. During an outage it cannot be read. A plan shapes the next feed of all
commits: what is committed just before, what the feed does not show, and where it fails.
-/

namespace CommitLog.Drill

/-- The place of a failure in a fetch. -/
inductive Failure where
  | atOnce (error : Error)
  | after (items : Nat) (error : Error)

structure Fetch where
  /-- Written by others just before the fetch. -/
  commits : List Attempt := []
  hidden : List Checkpoint := []
  failure : Option Failure := none

structure Faulty (σ : Type) where
  inner : σ
  down : Bool := false
  plan : Option Fetch := none

/-- A feed that does not show all there is and may fail before its end. -/
structure FaultyFeed (σ : Type) [CommitStore σ] where
  inner : CommitStore.Feed σ
  hidden : List Checkpoint := []
  /-- After so many items comes an error. -/
  failing : Option (Nat × Error) := none
  ended : Bool := false

namespace Faulty

variable {σ : Type} [CommitStore σ]

def onInner {α : Type} (operation : σ → α × σ) (store : Faulty σ) : α × Faulty σ :=
  let (answer, inner) := operation store.inner
  (answer, { store with inner })

def outage : Error := .storageUnavailable (.outage "scripted outage")

/-- An operation that an outage keeps from the store. -/
def exposed {α : Type} (operation : σ → Except Error α × σ) (store : Faulty σ) :
    Except Error α × Faulty σ :=
  if store.down then (.error outage, store) else onInner operation store

/-- A feed that shows all there is. -/
def openPlain (scope : Scope) (after : Checkpoint) (store : Faulty σ) :
    Except Error (FaultyFeed σ) × Faulty σ :=
  let operation (inner : σ) :=
    let (feed, inner) := CommitStore.openFeed scope after inner
    (feed.map fun inner => ({ inner } : FaultyFeed σ), inner)
  match scope with
  | .undispatched => onInner operation store
  | _ => exposed operation store

def openFeed (scope : Scope) (after : Checkpoint) (store : Faulty σ) :
    Except Error (FaultyFeed σ) × Faulty σ :=
  match scope, store.plan with
  | .all, some plan =>
    let store := { store with inner := CommitStore.commitAll plan.commits store.inner }
    match plan.failure with
    | some (.atOnce error) => (.error error, store)
    | some (.after items error) =>
      let (feed, store) := openPlain scope after store
      (feed.map fun feed => { feed with hidden := plan.hidden, failing := some (items, error) },
        store)
    | none =>
      let (feed, store) := openPlain scope after store
      (feed.map fun feed => { feed with hidden := plan.hidden }, store)
  | _, _ => openPlain scope after store

/-- The next item that is not hidden. -/
def nextShown (hidden : List Checkpoint) (feed : CommitStore.Feed σ) (store : σ) :
    Option FeedItem × CommitStore.Feed σ × σ :=
  match _found : CommitStore.next feed store with
  | (some (.ok commit), rest, after) =>
    if hidden.contains commit.checkpoint then nextShown hidden rest after
    else (some (.ok commit), rest, after)
  | (item, rest, after) => (item, rest, after)
termination_by CommitStore.remaining feed store
decreasing_by exact CommitStore.remaining_next _found

theorem nextShown_below {hidden : List Checkpoint} {feed rest : CommitStore.Feed σ} {store after : σ}
    {item : FeedItem} (h : nextShown hidden feed store = (some item, rest, after)) :
    Remaining.Below (CommitStore.remaining rest after) (CommitStore.remaining feed store) := by
  fun_induction nextShown hidden feed store with
  | case1 feed store commit _ _ found _ ih => exact (ih h).trans (CommitStore.remaining_next found)
  | case2 feed store commit _ _ found =>
    simp only [Prod.mk.injEq] at h
    obtain ⟨-, rfl, rfl⟩ := h
    exact CommitStore.remaining_next found
  | case3 =>
    simp only [Prod.mk.injEq] at h
    obtain ⟨rfl, rfl, rfl⟩ := h
    exact CommitStore.remaining_next ‹_›

def next (feed : FaultyFeed σ) (store : Faulty σ) : Option FeedItem × FaultyFeed σ × Faulty σ :=
  if feed.ended then (none, feed, store)
  else
    match feed.failing with
    | some (0, error) => (some (.error error), { feed with ended := true }, store)
    | failing =>
      match nextShown feed.hidden feed.inner store.inner, failing with
      | (none, _, inner), some (_, error) =>
        (some (.error error), { feed with ended := true }, { store with inner })
      | (none, rest, inner), none => (none, { feed with inner := rest }, { store with inner })
      | (some item, rest, inner), failing =>
        (some item, { feed with inner := rest, failing := failing.map fun (n, e) => (n - 1, e) },
          { store with inner })

/-- One more than the feed behind, for the error at its end. -/
def remaining (feed : FaultyFeed σ) (store : Faulty σ) : Nat × Nat :=
  if feed.ended then (0, 0)
  else
    let inner := CommitStore.remaining feed.inner store.inner
    (inner.1, inner.2 + 1)

theorem below_succ {a b : Nat × Nat} (h : Remaining.Below a b) :
    Remaining.Below (a.1, a.2 + 1) (b.1, b.2 + 1) := by
  rcases h with ⟨_, _, h⟩ | ⟨_, h⟩
  · exact .left _ _ h
  · exact .right _ (Nat.succ_lt_succ h)

theorem zero_below (a b : Nat) : Remaining.Below (0, 0) (a, b + 1) := by
  cases a with
  | zero => exact .right _ (Nat.succ_pos b)
  | succ a => exact .left _ _ (Nat.succ_pos a)

theorem remaining_next {feed rest : FaultyFeed σ} {store after : Faulty σ} {item : FeedItem}
    (h : next feed store = (some item, rest, after)) :
    Remaining.Below (remaining rest after) (remaining feed store) := by
  unfold next at h
  split at h
  · simp at h
  · next open_ =>
    split at h
    · simp only [Prod.mk.injEq] at h
      obtain ⟨-, rfl, rfl⟩ := h
      simpa [remaining, open_] using zero_below _ _
    · split at h
      · simp only [Prod.mk.injEq] at h
        obtain ⟨-, rfl, rfl⟩ := h
        simpa [remaining, open_] using zero_below _ _
      · simp at h
      · simp only [Prod.mk.injEq] at h
        obtain ⟨-, rfl, rfl⟩ := h
        simpa [remaining, open_] using below_succ (nextShown_below ‹_›)

end Faulty

instance {σ : Type} [CommitStore σ] : CommitStore (Faulty σ) where
  Feed := FaultyFeed σ
  prepare := Faulty.onInner CommitStore.prepare
  commit attempt := Faulty.onInner (CommitStore.commit attempt)
  getFrom key least most := Faulty.exposed (CommitStore.getFrom key least most)
  openFeed := Faulty.openFeed
  next := Faulty.next
  markDispatched checkpoint := Faulty.onInner (CommitStore.markDispatched checkpoint)
  head key := Faulty.onInner (CommitStore.head key)
  snapshot key most := Faulty.onInner (CommitStore.snapshot key most)
  addSnapshot snapshot := Faulty.onInner (CommitStore.addSnapshot snapshot)
  streamsToSnapshot bucket threshold :=
    Faulty.onInner (CommitStore.streamsToSnapshot bucket threshold)
  deleteStream key := Faulty.onInner (CommitStore.deleteStream key)
  purgeBucket bucket := Faulty.onInner (CommitStore.purgeBucket bucket)
  purge := Faulty.onInner CommitStore.purge
  dispose := Faulty.onInner CommitStore.dispose
  isDisposed store := CommitStore.isDisposed store.inner
  remaining := Faulty.remaining
  remaining_next := Faulty.remaining_next

end CommitLog.Drill
