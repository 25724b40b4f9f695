import CommitLog.Memory.Store
import CommitLog.Proofs.Journal

/-!
A ledger is a journal with the heads and snapshots of its streams, and `Ledger.answer` says in plain
terms what a store answers to each call. Both engines are held against it.
-/

namespace CommitLog

/-- Whether a feed after a checkpoint shows an entry. -/
def Entry.shown (scope : Scope) (after : Checkpoint) (entry : Entry) : Bool :=
  after < entry.commit.checkpoint &&
    match scope with
    | .all => true
    | .bucket bucket => entry.commit.bucket = bucket
    | .undispatched => !entry.dispatched

/-- Whether a commit has an event from one revision to another. -/
def Commit.overlaps (least most : UInt64) (commit : Commit) : Bool :=
  least.toNat ≤ commit.revision.toNat && commit.revision.toNat + 1 ≤ most.toNat + commit.events.length

structure Ledger extends Journal where
  heads : List StreamHead := []
  snapshots : List Snapshot := []
  disposed : Bool := false

namespace Ledger

def head? (ledger : Ledger) (key : StreamKey) : Option StreamHead :=
  ledger.heads.find? fun head => head.key = key

def accept (attempt : Attempt) (checkpoint : Checkpoint) (ledger : Ledger) : Ledger where
  toJournal := ledger.toJournal.accept attempt checkpoint
  heads := Memory.HeadUpdate.apply ⟨attempt.key, attempt.revision⟩ ledger.heads
  snapshots := ledger.snapshots
  disposed := ledger.disposed

def remove (gone : StreamKey → Bool) (ledger : Ledger) : Ledger where
  toJournal := ledger.toJournal.remove gone
  heads := ledger.heads.filter fun head => !gone head.key
  snapshots := ledger.snapshots.filter fun snapshot => !gone snapshot.key
  disposed := ledger.disposed

/-- Adds a snapshot of a stream that has a head, the first of its revision. -/
def addSnapshot (snapshot : Snapshot) (ledger : Ledger) : Bool × Ledger :=
  if (ledger.head? snapshot.key).isNone then (false, ledger)
  else if ledger.snapshots.any fun other => other.key = snapshot.key ∧ other.revision = snapshot.revision then
    (false, ledger)
  else
    (true, { ledger with
      snapshots := ledger.snapshots ++ [snapshot]
      heads := ledger.heads.map (MemoryStore.raiseSnapshot snapshot) })

/-- The heads that a snapshot is due for, the most urgent first. -/
def due (ledger : Ledger) (bucket : BucketId) (threshold : UInt64) : List StreamHead :=
  (ledger.heads.filter fun head =>
    head.key.bucket = bucket ∧ threshold ≤ head.unsnapshotted).mergeSort MemoryStore.dueOrder

def commit (attempt : Attempt) (ledger : Ledger) : Call.Answer × Ledger :=
  match attempt.refusal (ledger.postings attempt.key) with
  | some error => (.error error, ledger)
  | none =>
    match ledger.last.next with
    | .error overflow => (.error (.overflow overflow), ledger)
    | .ok checkpoint => (.ok (.commit (attempt.toCommit checkpoint)), ledger.accept attempt checkpoint)

/-- The answer to a call while the ledger is not disposed. -/
def respond : Call → Ledger → Call.Answer × Ledger
  | .prepare, ledger => (.ok .done, ledger)
  | .commit attempt, ledger => ledger.commit attempt
  | .getFrom key least most, ledger =>
    (.ok (.commits ((ledger.stream key).filter (Commit.overlaps least most))), ledger)
  | .readFeed scope after, ledger =>
    (.ok (.items ((ledger.entries.filter (Entry.shown scope after)).map fun entry => .ok entry.commit)), ledger)
  | .markDispatched checkpoint, ledger =>
    (.ok .done, { ledger with toJournal := ledger.toJournal.dispatch checkpoint })
  | .head key, ledger => (.ok (.head (ledger.head? key)), ledger)
  | .addSnapshot snapshot, ledger =>
    let (added, ledger) := ledger.addSnapshot snapshot
    (.ok (.flag added), ledger)
  | .snapshot key most, ledger =>
    (.ok (.snapshot (MemoryStore.newest (ledger.snapshots.filter fun snapshot =>
      snapshot.key = key ∧ snapshot.revision ≤ most))), ledger)
  | .streamsToSnapshot bucket threshold, ledger => (.ok (.heads (ledger.due bucket threshold)), ledger)
  | .deleteStream key, ledger => (.ok .done, ledger.remove fun other => other = key)
  | .purgeBucket bucket, ledger => (.ok .done, ledger.remove fun other => other.bucket = bucket)
  | .purge, ledger => (.ok .done, ledger.remove fun _ => true)
  | .dispose, ledger => (.ok .done, { ledger with disposed := true })
  | .isDisposed, ledger => (.ok (.flag false), ledger)

/-- The answer to a call. A disposed ledger can only be disposed again. -/
def answer (call : Call) (ledger : Ledger) : Call.Answer × Ledger :=
  if ledger.disposed then
    match call with
    | .dispose => (.ok .done, ledger)
    | .isDisposed => (.ok (.flag true), ledger)
    | _ => (.error .disposed, ledger)
  else ledger.respond call

def answerAll : List Call → Ledger → List Call.Answer × Ledger
  | [], ledger => ([], ledger)
  | call :: calls, ledger =>
    let (answer, ledger) := ledger.answer call
    let (answers, ledger) := answerAll calls ledger
    (answer :: answers, ledger)

theorem answer_of_open {ledger : Ledger} (isOpen : ledger.disposed = false) (call : Call) :
    ledger.answer call = ledger.respond call := by
  unfold answer
  exact if_neg (by simp [isOpen])

/-- What a disposed ledger answers. -/
theorem answer_of_disposed {ledger : Ledger} (disposed : ledger.disposed = true) (call : Call) :
    ledger.answer call =
      match call with
      | .dispose => (.ok .done, ledger)
      | .isDisposed => (.ok (.flag true), ledger)
      | _ => (.error .disposed, ledger) := by
  unfold answer
  exact if_pos disposed

theorem addSnapshot_toJournal (snapshot : Snapshot) (ledger : Ledger) :
    (ledger.addSnapshot snapshot).2.toJournal = ledger.toJournal := by
  unfold addSnapshot
  split
  · rfl
  split <;> rfl

theorem commit_step (attempt : Attempt) (ledger : Ledger) :
    Journal.Step ledger.toJournal (ledger.commit attempt).1.accepted (ledger.commit attempt).2.toJournal := by
  unfold commit
  split
  · exact .stay _
  next taken =>
  split
  · exact .stay _
  next next => exact .accept taken next

/-- A call does to the journal of a ledger what a step may do. -/
theorem answer_step (call : Call) (ledger : Ledger) :
    Journal.Step ledger.toJournal (ledger.answer call).1.accepted (ledger.answer call).2.toJournal := by
  unfold answer
  split
  · cases call <;> exact .stay _
  cases call with
  | commit attempt => exact ledger.commit_step attempt
  | markDispatched checkpoint => exact .dispatch checkpoint _
  | deleteStream key => exact .remove (fun other => other = key) ledger.toJournal
  | purgeBucket bucket => exact .remove (fun other => other.bucket = bucket) ledger.toJournal
  | purge => exact .remove (fun _ => true) ledger.toJournal
  | addSnapshot snapshot =>
    show Journal.Step _ none (ledger.addSnapshot snapshot).2.toJournal
    rw [addSnapshot_toJournal]
    exact .stay _
  | _ => exact .stay _

/-- The journal of a ledger stays sound over any calls. -/
theorem answerAll_sound {ledger : Ledger} {accepted : List Commit} (sound : ledger.Sound accepted) (calls : List Call) :
    (ledger.answerAll calls).2.Sound (accepted ++ Call.accepted (ledger.answerAll calls).1) := by
  induction calls generalizing ledger accepted with
  | nil => simpa [answerAll, Call.accepted] using sound
  | cons call calls ih =>
    have later := ih (sound.step (ledger.answer_step call))
    rw [List.append_assoc] at later
    rw [answerAll]
    dsimp only
    rw [Call.accepted_cons]
    exact later

end Ledger
end CommitLog
