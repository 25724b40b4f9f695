import CommitLog.Store

/-!
The calls of a store as data, so that what a store does over a whole run can be said: `serve` makes
one call and `serveAll` makes many, one after the other, and collects the answers.
-/

namespace CommitLog

inductive Call where
  | prepare
  | commit (attempt : Attempt)
  | getFrom (key : StreamKey) (least most : UInt64)
  /-- A feed read to its end. -/
  | readFeed (scope : Scope) (after : Checkpoint)
  | markDispatched (checkpoint : Checkpoint)
  | head (key : StreamKey)
  | addSnapshot (snapshot : Snapshot)
  | snapshot (key : StreamKey) (most : UInt64)
  | streamsToSnapshot (bucket : BucketId) (threshold : UInt64)
  | deleteStream (key : StreamKey)
  | purgeBucket (bucket : BucketId)
  | purge
  | dispose
  | isDisposed

namespace Call

/-- What a call answers when it succeeds. -/
inductive Reply where
  | done
  | flag (value : Bool)
  | commit (commit : Commit)
  | commits (commits : List Commit)
  | items (items : List FeedItem)
  | head (head : Option StreamHead)
  | heads (heads : List StreamHead)
  | snapshot (snapshot : Option Snapshot)

/-- The answer of a call. -/
abbrev Answer := Except Error Reply

/-- The commit that a call has added to the log, if it has. -/
def Answer.accepted : Answer → Option Commit
  | .ok (.commit made) => some made
  | _ => none

/-- The commits that a run has added to the log, in order. -/
def accepted (answers : List Answer) : List Commit := answers.filterMap Answer.accepted

variable {σ : Type}

/-- Puts an answer in the form that all calls share. -/
def answering {α : Type} (reply : α → Reply) (served : Except Error α × σ) : Answer × σ :=
  (served.1.map reply, served.2)

/-- Only an answer that is a commit adds one to the log. -/
theorem accepted_answering {α : Type} {reply : α → Reply} (plain : ∀ value, Answer.accepted (.ok (reply value)) = none)
    (served : Except Error α × σ) : (answering reply served).1.accepted = none := by
  obtain ⟨result, store⟩ := served
  cases result with
  | error => rfl
  | ok value => exact plain value

variable [CommitStore σ]

def serve : Call → σ → Answer × σ
  | .prepare, store => answering (fun _ => .done) (CommitStore.prepare store)
  | .commit attempt, store => answering .commit (CommitStore.commit attempt store)
  | .getFrom key least most, store => answering .commits (CommitStore.getFrom key least most store)
  | .readFeed scope after, store => answering .items (CommitStore.readFeed scope after store)
  | .markDispatched checkpoint, store => answering (fun _ => .done) (CommitStore.markDispatched checkpoint store)
  | .head key, store => answering .head (CommitStore.head key store)
  | .addSnapshot taken, store => answering .flag (CommitStore.addSnapshot taken store)
  | .snapshot key most, store => answering .snapshot (CommitStore.snapshot key most store)
  | .streamsToSnapshot bucket threshold, store =>
    answering .heads (CommitStore.streamsToSnapshot bucket threshold store)
  | .deleteStream key, store => answering (fun _ => .done) (CommitStore.deleteStream key store)
  | .purgeBucket bucket, store => answering (fun _ => .done) (CommitStore.purgeBucket bucket store)
  | .purge, store => answering (fun _ => .done) (CommitStore.purge store)
  | .dispose, store => answering (fun _ => .done) (CommitStore.dispose store)
  | .isDisposed, store => (.ok (.flag (CommitStore.isDisposed store)), store)

/-- A store that is disposed: it refuses whatever concerns its content and stays as it is. -/
structure Closed (store : σ) : Prop where
  prepare : CommitStore.prepare store = (.error .disposed, store)
  commit : ∀ attempt, CommitStore.commit attempt store = (.error .disposed, store)
  getFrom : ∀ key least most, CommitStore.getFrom key least most store = (.error .disposed, store)
  openFeed : ∀ scope after, CommitStore.openFeed scope after store = (.error .disposed, store)
  markDispatched : ∀ checkpoint, CommitStore.markDispatched checkpoint store = (.error .disposed, store)
  head : ∀ key, CommitStore.head key store = (.error .disposed, store)
  addSnapshot : ∀ snapshot, CommitStore.addSnapshot snapshot store = (.error .disposed, store)
  snapshot : ∀ key most, CommitStore.snapshot key most store = (.error .disposed, store)
  streamsToSnapshot : ∀ bucket threshold,
    CommitStore.streamsToSnapshot bucket threshold store = (.error .disposed, store)
  deleteStream : ∀ key, CommitStore.deleteStream key store = (.error .disposed, store)
  purgeBucket : ∀ bucket, CommitStore.purgeBucket bucket store = (.error .disposed, store)
  purge : CommitStore.purge store = (.error .disposed, store)

/-- A disposed store refuses every call but those about its disposal. -/
theorem Closed.serve {store : σ} (closed : Closed store) {call : Call} (other : call ≠ .dispose)
    (another : call ≠ .isDisposed) : call.serve store = (.error .disposed, store) := by
  cases call with
  | prepare => rw [Call.serve, closed.prepare]; rfl
  | commit => rw [Call.serve, closed.commit]; rfl
  | getFrom => rw [Call.serve, closed.getFrom]; rfl
  | readFeed => rw [Call.serve, CommitStore.readFeed, closed.openFeed]; rfl
  | markDispatched => rw [Call.serve, closed.markDispatched]; rfl
  | head => rw [Call.serve, closed.head]; rfl
  | addSnapshot => rw [Call.serve, closed.addSnapshot]; rfl
  | snapshot => rw [Call.serve, closed.snapshot]; rfl
  | streamsToSnapshot => rw [Call.serve, closed.streamsToSnapshot]; rfl
  | deleteStream => rw [Call.serve, closed.deleteStream]; rfl
  | purgeBucket => rw [Call.serve, closed.purgeBucket]; rfl
  | purge => rw [Call.serve, closed.purge]; rfl
  | dispose => exact absurd rfl other
  | isDisposed => exact absurd rfl another

/-- Makes calls in order, and stops for none of them. -/
def serveAll : List Call → σ → List Answer × σ
  | [], store => ([], store)
  | call :: calls, store =>
    let (answer, store) := call.serve store
    let (answers, store) := serveAll calls store
    (answer :: answers, store)

theorem accepted_cons (answer : Answer) (answers : List Answer) :
    accepted (answer :: answers) = answer.accepted.toList ++ accepted answers := by
  cases made : answer.accepted with
  | none => simp [accepted, made]
  | some commit => simp [accepted, made]

theorem length_answers (calls : List Call) (store : σ) : (serveAll calls store).1.length = calls.length := by
  induction calls generalizing store with
  | nil => rfl
  | cons call calls ih => simpa [serveAll] using ih (call.serve store).2

/-- A run accepts no more commits than it has calls. -/
theorem length_accepted_le (calls : List Call) (store : σ) :
    (accepted (serveAll calls store).1).length ≤ calls.length := by
  rw [← length_answers calls store]
  exact List.length_filterMap_le _ _

end Call
end CommitLog
