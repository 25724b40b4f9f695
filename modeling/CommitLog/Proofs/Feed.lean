import CommitLog.Store

/-!
A feed that is read to its end. Whatever a store does for a page, it is enough to say of each place in
a feed what is left (`rest_of_next`). Pages follow one another without a gap because checkpoints
ascend (`beyond_page`).
-/

namespace CommitLog

/-- What a feed shows from here on, when `later` lies beyond the place it has reached. -/
def Cursor.left (cursor : Cursor) (later : List Commit) : List FeedItem :=
  (cursor.page ++ if cursor.exhausted then [] else later).map .ok

/-- What a feed answers from here on, when its pages from here on answer `beyond`. -/
def Cursor.itemsLeft (cursor : Cursor) (beyond : List FeedItem) : List FeedItem :=
  cursor.page.map .ok ++ if cursor.exhausted then [] else beyond

theorem Cursor.left_eq (cursor : Cursor) (later : List Commit) : cursor.left later = cursor.itemsLeft (later.map .ok) := by
  unfold left itemsLeft
  cases cursor.exhausted <;> simp

/-- With a page that is only empty at the end, the next item of what is left is handed out. -/
theorem Cursor.pop_itemsLeft {cursor : Cursor} (ready : cursor.page = [] → cursor.exhausted = true)
    (beyond : List FeedItem) :
    (cursor.itemsLeft beyond = [] → cursor.pop = (none, cursor)) ∧
      ∀ item items, cursor.itemsLeft beyond = item :: items → ∃ page, cursor.pop = (some item, { cursor with page }) ∧
        ({ cursor with page } : Cursor).itemsLeft beyond = items := by
  unfold Cursor.pop
  cases held : cursor.page with
  | nil => simp [Cursor.itemsLeft, held, ready held]
  | cons commit page =>
    constructor
    · intro nothing
      simp [Cursor.itemsLeft, held] at nothing
    · intro item items remains
      simp only [Cursor.itemsLeft, held, List.map_cons, List.cons_append, List.cons.injEq] at remains
      obtain ⟨rfl, rfl⟩ := remains
      exact ⟨page, rfl, rfl⟩

theorem Cursor.pop_left {cursor : Cursor} (ready : cursor.page = [] → cursor.exhausted = true) (later : List Commit) :
    (cursor.left later = [] → cursor.pop = (none, cursor)) ∧
      ∀ item items, cursor.left later = item :: items →
        ∃ page, cursor.pop = (some item, { cursor with page }) ∧ ({ cursor with page } : Cursor).left later = items := by
  simp only [left_eq]
  exact pop_itemsLeft ready _

/-- What a look for a page makes of a cursor that has none, when `later` lies beyond each place. -/
structure Cursor.Refilled (later : Scope → Checkpoint → List Commit) (cursor ready : Cursor) : Prop where
  empty : cursor.page = []
  unfinished : cursor.exhausted = false
  scope : ready.scope = cursor.scope
  ahead : cursor.after ≤ ready.after
  /-- The new page comes from before the place that is reached. -/
  behind : ∀ commit ∈ ready.page, commit.checkpoint ≤ ready.after
  /-- The new page and what lies beyond it are all that lay beyond the old place. -/
  left : ready.left (later ready.scope ready.after) = (later cursor.scope cursor.after).map .ok
  full : ready.page = [] → ready.exhausted = true

/-- A feed takes each item from the page of its cursor, or from a new one. -/
def Turns (next : Cursor → Option FeedItem × Cursor) (later : Scope → Checkpoint → List Commit) : Prop :=
  ∀ cursor, ∃ ready : Cursor, next cursor = ready.pop ∧
    (ready = cursor ∧ (cursor.page = [] → cursor.exhausted = true) ∨ cursor.Refilled later ready)

section

variable {next : Cursor → Option FeedItem × Cursor} {later : Scope → Checkpoint → List Commit} {cursor : Cursor}

/-- Nothing is lost or added on the way to the next item. -/
theorem Turns.left (turns : Turns next later) (cursor : Cursor) : ∃ ready : Cursor, next cursor = ready.pop ∧
    ready.left (later ready.scope ready.after) = cursor.left (later cursor.scope cursor.after) ∧
      (ready.page = [] → ready.exhausted = true) := by
  obtain ⟨ready, popped, ⟨rfl, full⟩ | refilled⟩ := turns cursor
  · exact ⟨ready, popped, rfl, full⟩
  · refine ⟨ready, popped, refilled.left.trans ?_, refilled.full⟩
    simp [Cursor.left, refilled.empty, refilled.unfinished]

theorem Turns.ended (turns : Turns next later) (nothing : cursor.left (later cursor.scope cursor.after) = []) :
    ∃ after, next cursor = (none, after) := by
  obtain ⟨ready, popped, same, full⟩ := turns.left cursor
  exact ⟨ready, by rw [popped, (Cursor.pop_left full _).1 (same.trans nothing)]⟩

theorem Turns.shown (turns : Turns next later) {item : FeedItem} {items : List FeedItem}
    (remains : cursor.left (later cursor.scope cursor.after) = item :: items) :
    ∃ after, next cursor = (some item, after) ∧ after.left (later after.scope after.after) = items := by
  obtain ⟨ready, popped, same, full⟩ := turns.left cursor
  obtain ⟨page, found, fewer⟩ := (Cursor.pop_left full _).2 item items (same.trans remains)
  exact ⟨{ ready with page }, popped.trans found, fewer⟩

end

namespace CommitStore

/-- What is left of a feed is its next item and what is left then. -/
theorem rest_eq {σ : Type} [CommitStore σ] (feed : Feed σ) (store : σ) :
    rest feed store =
      match next feed store with
      | (none, _, store) => ([], store)
      | (some item, feed, store) => (item :: (rest feed store).1, (rest feed store).2) := by
  rw [rest]
  split
  · next found => rw [found]
  · next found => rw [found]

/-- A feed hands out what is left of it if every single item does, and the store stays as it is. -/
theorem rest_of_next {σ : Type} [CommitStore σ] {store : σ} {left : Feed σ → List FeedItem}
    (ended : ∀ feed, left feed = [] → ∃ after, next feed store = (none, after, store))
    (shown : ∀ feed item items, left feed = item :: items →
      ∃ after, next feed store = (some item, after, store) ∧ left after = items)
    (feed : Feed σ) : rest feed store = (left feed, store) := by
  generalize remains : left feed = items
  induction items generalizing feed with
  | nil =>
    obtain ⟨after, found⟩ := ended feed remains
    rw [rest_eq, found]
  | cons item items ih =>
    obtain ⟨after, found, fewer⟩ := shown feed item items remains
    rw [rest_eq, found]
    dsimp only
    rw [ih after fewer]

/-- Reading changes nothing if no single item does. -/
theorem rest_store {σ : Type} [CommitStore σ] {store : σ} (same : ∀ feed, (next feed store).2.2 = store)
    (feed : Feed σ) : (rest feed store).2 = store := by
  fun_induction rest feed store with
  | case1 feed store after unchanged found => simpa [found] using same feed
  | case2 feed store item following after found items left step ih =>
    have unchanged : after = store := by simpa [found] using same feed
    subst unchanged
    rw [step] at ih
    exact ih same

/-- A feed is read to its end alike in two stores if every single item is handed out alike. -/
theorem rest_into {σ τ : Type} [CommitStore σ] [CommitStore τ] {store : σ} {other : τ} {into : Feed σ → Feed τ}
    (same : ∀ feed, (next feed store).2.2 = store)
    (turn : ∀ feed, next (into feed) other = ((next feed store).1, into (next feed store).2.1, other)) (feed : Feed σ) :
    rest (into feed) other = ((rest feed store).1, other) := by
  fun_induction rest feed store with
  | case1 feed store after unchanged found =>
    rw [rest_eq, turn feed, found]
  | case2 feed store item following after found items left step ih =>
    have unchanged : after = store := by simpa [found] using same feed
    subst unchanged
    rw [rest_eq, turn feed, found]
    dsimp only
    rw [ih same turn, step]

theorem readFeed_store {σ : Type} [CommitStore σ] {store : σ} {scope : Scope} {after : Checkpoint}
    (same : ∀ feed, (next feed store).2.2 = store) (opens : (openFeed scope after store).2 = store) :
    (readFeed scope after store).2 = store := by
  obtain ⟨answer, opened⟩ : ∃ answer, openFeed scope after store = (answer, store) := ⟨_, Prod.ext rfl opens⟩
  rw [readFeed, opened]
  cases answer with
  | error => rfl
  | ok feed => exact rest_store same feed

theorem readFeed_into {σ τ : Type} [CommitStore σ] [CommitStore τ] {store : σ} {other : τ} {into : Feed σ → Feed τ}
    {scope : Scope} {after : Checkpoint} (same : ∀ feed, (next feed store).2.2 = store)
    (turn : ∀ feed, next (into feed) other = ((next feed store).1, into (next feed store).2.1, other))
    (opens : (openFeed scope after store).2 = store)
    (opensInto : openFeed scope after other = ((openFeed scope after store).1.map into, other)) :
    readFeed scope after other = ((readFeed scope after store).1, other) := by
  obtain ⟨answer, opened⟩ : ∃ answer, openFeed scope after store = (answer, store) := ⟨_, Prod.ext rfl opens⟩
  rw [readFeed, readFeed, opensInto, opened]
  cases answer with
  | error => rfl
  | ok feed =>
    have read := rest_into same turn feed
    simp only [Except.map]
    rw [read]

end CommitStore

/-- Where numbers ascend, none is beyond the last. -/
theorem le_getLast {α : Type} {place : α → Int} {xs : List α} (ascending : xs.Pairwise fun a b => place a < place b)
    {last : α} (found : xs.getLast? = some last) : ∀ x ∈ xs, place x ≤ place last := by
  intro x member
  obtain ⟨before, rfl⟩ := List.getLast?_eq_some_iff.1 found
  rcases List.mem_append.1 member with early | same
  · exact Int.le_of_lt ((List.pairwise_append.1 ascending).2.2 x early last (by simp))
  · exact Int.le_of_eq (congrArg place (List.mem_singleton.1 same))

/-- Where numbers ascend, those beyond the last of a page are those after the page. -/
theorem beyond_page {α : Type} {place : α → Int} {xs : List α} (ascending : xs.Pairwise fun a b => place a < place b)
    {count : Nat} {last : α} (found : (xs.take count).getLast? = some last) :
    (xs.filter fun x => place last < place x) = xs.drop count := by
  obtain ⟨before, page⟩ := List.getLast?_eq_some_iff.1 found
  have parts : xs = before ++ last :: xs.drop count := by
    have whole := List.take_append_drop count xs
    rw [page] at whole
    simpa using whole.symm
  rw [parts] at ascending
  obtain ⟨-, later, ordered⟩ := List.pairwise_append.1 ascending
  rw [List.pairwise_cons] at later
  conv => lhs; rw [parts]
  rw [List.filter_append, List.filter_cons, if_neg (by simp)]
  have earlier : (before.filter fun x => place last < place x) = [] := by
    refine List.filter_eq_nil_iff.2 fun x member => ?_
    have := ordered x member last (by simp)
    simp only [decide_eq_true_eq]
    omega
  have further : ((xs.drop count).filter fun x => place last < place x) = xs.drop count :=
    List.filter_eq_self.2 fun x member => by simpa using later.1 x member
  rw [earlier, further, List.nil_append]

end CommitLog
