import CommitLog.Commit

/-!
Feeds: the commits of a store in the order of their checkpoints, read a page at a time. A feed
does not hold the store still. It remembers how far it has read, and each page is taken from the
store as it is when the page is needed.
-/

namespace CommitLog

/-- Which commits a feed is about. -/
inductive Scope where
  | all
  | bucket (bucket : BucketId)
  | undispatched
  deriving DecidableEq, Repr

/-- A commit, or why the next one could not be read. -/
abbrev FeedItem := Except Error Commit

/-- A feed in progress. -/
structure Cursor where
  scope : Scope
  /-- Everything up to here has been taken from the store. -/
  after : Checkpoint
  /-- Taken from the store and not yet handed out. -/
  page : List Commit := []
  /-- No further page will be asked for. -/
  exhausted : Bool := false

namespace Cursor

def start (scope : Scope) (after : Checkpoint) : Cursor := { scope, after }

/-- Hands out the first commit of the page. -/
def pop (cursor : Cursor) : Option FeedItem × Cursor :=
  match cursor.page with
  | [] => (none, cursor)
  | commit :: page => (some (.ok commit), { cursor with page })

theorem pop_some {cursor after : Cursor} {item : FeedItem} (h : cursor.pop = (some item, after)) :
    after.page.length < cursor.page.length ∧ after.after = cursor.after ∧
      after.exhausted = cursor.exhausted ∧ after.scope = cursor.scope := by
  unfold pop at h
  split at h
  · cases h
  · next heq => cases h; simp [heq]

/-- What is left of a feed when `later` entries lie beyond the place it has reached: the entries
first, then the page. It shrinks with every item as long as the store stays as it is. -/
def remaining (cursor : Cursor) (later : Nat) : Nat × Nat :=
  (if cursor.exhausted then 0 else later + 1, cursor.page.length)

end Cursor

/-- One measure of what is left is below another. -/
abbrev Remaining.Below : Nat × Nat → Nat × Nat → Prop := Prod.Lex (· < ·) (· < ·)

theorem Remaining.Below.trans {a b c : Nat × Nat} (lower : Below a b) (upper : Below b c) :
    Below a c := by
  rcases lower with ⟨_, _, lower⟩ | ⟨_, lower⟩ <;> rcases upper with ⟨_, _, upper⟩ | ⟨_, upper⟩
  · exact .left _ _ (Nat.lt_trans lower upper)
  · exact .left _ _ lower
  · exact .left _ _ upper
  · exact .right _ (Nat.lt_trans lower upper)

end CommitLog
