import CommitLog.Drill.Faults
import CommitLog.Proofs.Engine

/-!
A client of a stream on an engine that others write to as well. Its view is the beginning of the log
(`Follows`): it stays so while the log grows, when the view is refreshed, and when the client commits. A
commit succeeds only if the view was the whole log (`Follows.commitChanges`).
-/

namespace CommitLog

namespace Engine

/-- An engine as a client reaches it, who may fail to read it. -/
def reach (engine : Engine) (readFails : Bool) : Drill.Faulty Engine := { inner := engine, down := readFails }

theorem reach_commit (attempt : Attempt) (engine : Engine) (readFails : Bool) :
    CommitStore.commit attempt (engine.reach readFails) =
      ((CommitStore.commit attempt engine).1, (CommitStore.commit attempt engine).2.reach readFails) := rfl

theorem reach_getFrom (key : StreamKey) (least most : UInt64) (engine : Engine) :
    CommitStore.getFrom key least most (engine.reach false) =
      ((CommitStore.getFrom key least most engine).1, (CommitStore.getFrom key least most engine).2.reach false) := rfl

end Engine

namespace EventStream

/-- A client of a stream that shows the first commits of its log. -/
structure Follows (client : EventStream) (key : StreamKey) (log : List Commit) : Prop where
  key : client.key = key
  view : ∃ seen new, log = seen ++ new ∧ client.Shows seen

variable {client : EventStream} {key : StreamKey} {log : List Commit}

theorem Follows.create (key : StreamKey) (log : List Commit) : (create key).Follows key log :=
  ⟨rfl, [], log, rfl, .create key⟩

theorem Follows.of_shows (same : client.key = key) (shows : client.Shows log) : client.Follows key log :=
  ⟨same, log, [], by simp, shows⟩

/-- A log that has grown is still followed. -/
theorem Follows.append (follows : client.Follows key log) (more : List Commit) : client.Follows key (log ++ more) := by
  obtain ⟨same, seen, new, rfl, shows⟩ := follows
  exact ⟨same, seen, new ++ more, by simp, shows⟩

/-- What is not committed yet is not part of the view. -/
theorem Follows.of_view {other : EventStream} (follows : client.Follows key log) (sameKey : other.key = client.key)
    (committed : other.committed = client.committed) (revision : other.revision = client.revision)
    (sequence : other.sequence = client.sequence) : other.Follows key log := by
  obtain ⟨same, seen, new, split, shows⟩ := follows
  exact ⟨by rw [sameKey, same], seen, new, split, shows.of_view committed revision sequence⟩

theorem Follows.add (follows : client.Follows key log) (event : Event) : (client.add event).Follows key log := by
  rw [EventStream.add]
  split
  · exact follows
  · exact follows.of_view rfl rfl rfl rfl

variable {readable : Commit → Prop} {engine : Engine} {journal : Journal} {accepted : List Commit}

/-- A client that is opened shows the whole log. -/
theorem Follows.opened (holds : engine.Holds readable journal) (sound : journal.Sound accepted)
    (known : ∀ commit ∈ journal.stream key, readable commit) :
    ∃ client, openWindow key 0 maxRevision engine = (.ok client, engine) ∧
      client.Follows key (journal.stream key) := by
  have orderly := sound.orderly key
  obtain ⟨least, early, read⟩ := holds.getFrom sound known 0
  have start : (0 : UInt64).toNat ≤ (Commit.eventsOf []).length + 1 := Nat.zero_le _
  obtain ⟨client, shows, same, populated⟩ := @Shows.extend _ [] (journal.stream key) (.create key) orderly 0 start
  rw [orderly.window_all early] at read
  refine ⟨client, ?_, .of_shows same shows⟩
  rw [openWindow, read]
  dsimp only
  rw [Engine.populate_shows, populated]
  rfl

/-- The revision after the last one a client has seen is still a word. -/
theorem Shows.sum_one {seen new : List Commit} (shows : client.Shows seen) (orderly : Orderly (seen ++ new)) :
    ∃ least : UInt64, Overflow.sum client.revision 1 = .ok least ∧
      least.toNat = (Commit.eventsOf seen).length + 1 := by
  have limit : maxRevision.toNat = 9223372036854775807 := rfl
  have size : UInt64.size = 18446744073709551616 := rfl
  have few := orderly.few
  have known := shows.revision
  have fits : client.revision.toNat + 1 < UInt64.size := by omega
  refine ⟨_, if_pos fits, ?_⟩
  rw [UInt64.toNat_ofNat_of_lt' fits, known]

/-- A refresh shows the whole log, or leaves the view as it is. -/
theorem Follows.refresh (follows : client.Follows key (journal.stream key)) (holds : engine.Holds readable journal)
    (sound : journal.Sound accepted) (known : ∀ commit ∈ journal.stream key, readable commit) (readFails : Bool) :
    ∃ after, client.refresh (engine.reach readFails) = (.ok (), after, engine.reach readFails) ∧
      after.Follows key (journal.stream key) := by
  have orderly := sound.orderly key
  obtain ⟨same, seen, new, split, shows⟩ := follows
  rw [split] at orderly
  obtain ⟨least, sum, reached⟩ := shows.sum_one orderly
  cases readFails with
  | true =>
    refine ⟨client, ?_, same, seen, new, split, shows⟩
    rw [EventStream.refresh, sum]
    rfl
  | false =>
    obtain ⟨start, early, read⟩ := holds.getFrom sound known least
    have within : start.toNat ≤ (Commit.eventsOf seen).length + 1 := by omega
    obtain ⟨again, repeated, window⟩ := orderly.window within
    obtain ⟨after, showsAll, sameKey, populated⟩ := shows.populate orderly repeated (Nat.le_of_eq reached)
    have found : CommitStore.getFrom key least maxRevision (engine.reach false) =
        (.ok ((again ++ new).map engine.shows), engine.reach false) := by
      rw [Engine.reach_getFrom, read, split, window]
    refine ⟨after, ?_, .of_shows (by rw [sameKey, same]) (by rw [split]; exact showsAll)⟩
    rw [EventStream.refresh, sum]
    dsimp only
    rw [same, found]
    dsimp only
    rw [Engine.populate_shows, populated]

/-! ### Commits of a client -/

/-- What comes of the changes of a client: they are not committed, and the log stays as it is, or they are
the next commit, which takes that the client has seen the whole log. -/
inductive Outcome (readable : Commit → Prop) (client : EventStream) (key : StreamKey) (journal : Journal) :
    Except Error (Option Commit) → EventStream → Engine → Prop where
  | refused {answer : Except Error (Option Commit)} {after : EventStream} {engine : Engine}
    (nothing : ∀ commit, answer ≠ .ok (some commit)) (follows : after.Follows key (journal.stream key))
    (holds : engine.Holds readable journal) : Outcome readable client key journal answer after engine
  | committed {attempt : Attempt} {checkpoint : Checkpoint} {after : EventStream} {engine : Engine}
    (same : attempt.key = key) (proposed : attempt.events = client.uncommitted)
    (taken : attempt.refusal (journal.postings attempt.key) = none) (next : journal.last.next = .ok checkpoint)
    (entire : client.Shows (journal.stream key))
    (follows : after.Follows key ((journal.accept attempt checkpoint).stream key))
    (holds : engine.Holds readable (journal.accept attempt checkpoint)) :
    Outcome readable client key journal (.ok (some (attempt.toCommit checkpoint))) after engine

/-- An attempt of a client is made of its changes, and of two sums that do not overflow. -/
theorem attempt_cases {id : CommitId} {now : UInt64} {attempt : Attempt} (made : client.attempt id now = .ok attempt) :
    ∃ revision sequence, Overflow.sum client.revision client.uncommitted.length = .ok revision ∧
      Overflow.sum client.sequence 1 = .ok sequence ∧
      attempt = ⟨client.key.bucket, client.key.stream, revision, id, sequence, now, client.uncommittedHeaders,
        client.uncommitted⟩ := by
  unfold EventStream.attempt at made
  cases reached : Overflow.sum client.revision client.uncommitted.length with
  | error => rw [reached] at made; contradiction
  | ok revision =>
    cases counted : Overflow.sum client.sequence 1 with
    | error => rw [reached, counted] at made; contradiction
    | ok sequence =>
      rw [reached, counted] at made
      cases made
      exact ⟨revision, sequence, rfl, rfl, rfl⟩

/-- The attempt of a client continues its view. -/
theorem attempt_eq_ok {id : CommitId} {now : UInt64} {attempt : Attempt} (made : client.attempt id now = .ok attempt) :
    attempt.key = client.key ∧ attempt.events = client.uncommitted ∧
      attempt.revision.toNat = client.revision.toNat + client.uncommitted.length ∧
      attempt.sequence.toNat = client.sequence.toNat + 1 := by
  obtain ⟨revision, sequence, reached, counted, rfl⟩ := attempt_cases made
  exact ⟨rfl, rfl, Overflow.sum_eq_ok reached, Overflow.sum_eq_ok counted⟩

/-- An attempt of a client has the id that it was given, and the headers of the changes. -/
theorem attempt_named {id : CommitId} {now : UInt64} {attempt : Attempt} (made : client.attempt id now = .ok attempt) :
    attempt.id = id ∧ attempt.headers = client.uncommittedHeaders := by
  obtain ⟨revision, sequence, -, -, rfl⟩ := attempt_cases made
  exact ⟨rfl, rfl⟩

/-- A commit that was taken extends the view of its client to the new end of the log. -/
theorem Follows.follow (follows : client.Follows key (journal.stream key)) (sound : journal.Sound accepted)
    {id : CommitId} {now : UInt64} {attempt : Attempt} (made : client.attempt id now = .ok attempt)
    {checkpoint : Checkpoint} (taken : attempt.refusal (journal.postings attempt.key) = none)
    (next : journal.last.next = .ok checkpoint) :
    client.Shows (journal.stream key) ∧
      ∃ after, client.follow [attempt.toCommit checkpoint] = (.ok (), after) ∧
        after.Follows key ((journal.accept attempt checkpoint).stream key) := by
  obtain ⟨same, seen, new, split, shows⟩ := follows
  obtain ⟨sameKey, events, revision, sequence⟩ := attempt_eq_ok made
  rw [same] at sameKey
  obtain ⟨-, -, -, place, -⟩ := Attempt.refusal_eq_none.1 taken
  have length : (journal.postings attempt.key).length = seen.length + new.length := by
    rw [sameKey, Journal.postings, List.length_map, split, List.length_append]
  -- The sequence that was taken is the one after the view, so that nothing comes after the view.
  have nothing : new = [] := by
    refine List.length_eq_zero_iff.1 ?_
    have counted := shows.sequence
    omega
  subst nothing
  rw [List.append_nil] at split
  subst split
  have grown := Journal.stream_accept journal attempt checkpoint key
  rw [if_pos sameKey] at grown
  have fits : (attempt.toCommit checkpoint).Fits := by
    refine (sound.accept taken next).fits ?_
    rw [Journal.commits_accept]
    simp
  have orderly : Orderly (journal.stream key ++ []) := by simpa using sound.orderly key
  obtain ⟨least, sum, reached⟩ := shows.sum_one orderly
  have starts : (attempt.toCommit checkpoint).revision.toNat =
      (Commit.eventsOf (journal.stream key)).length + (attempt.toCommit checkpoint).events.length := by
    show attempt.revision.toNat = _ + attempt.events.length
    rw [revision, shows.revision, events]
  have counts : (attempt.toCommit checkpoint).sequence.toNat = (journal.stream key).length + 1 := by
    show attempt.sequence.toNat = _
    rw [sequence, shows.sequence]
  obtain ⟨after, showsAll, keyAfter, populated⟩ := shows.next fits starts counts (Nat.le_of_eq reached)
  refine ⟨shows, after, ?_, ?_⟩
  · rw [EventStream.follow, sum]
    exact populated []
  · rw [grown]
    exact .of_shows (by rw [keyAfter, same]) showsAll

/-- How a client's changes are committed: nothing is sent or accepted and the client stays as it is, or there is a
conflict and it refreshes its view, or the attempt is accepted and it follows its own commit. -/
theorem commitChanges_cases (holds : engine.Holds readable journal) (sound : journal.Sound accepted)
    (client : EventStream) (id : CommitId) (now : UInt64) (readFails : Bool) :
    (∃ (answer : Except Error (Option Commit)) (inner : Engine),
        client.commitChanges id now (engine.reach readFails) = (answer, client, inner.reach readFails) ∧
        (∀ commit, answer ≠ .ok (some commit)) ∧ (∀ other sequence, answer ≠ .error (.concurrency other sequence)) ∧
        inner.Holds readable journal) ∨
      (∃ (other : StreamKey) (sequence : UInt64) (inner : Engine), inner.Holds readable journal ∧
        ∀ after, client.refresh (inner.reach readFails) = (.ok (), after, inner.reach readFails) →
          client.commitChanges id now (engine.reach readFails) =
            (.error (.concurrency other sequence), after, inner.reach readFails)) ∨
      ∃ (attempt : Attempt) (checkpoint : Checkpoint) (inner : Engine), client.attempt id now = .ok attempt ∧
        attempt.refusal (journal.postings attempt.key) = none ∧ journal.last.next = .ok checkpoint ∧
        inner.Holds readable (journal.accept attempt checkpoint) ∧
        ∀ after, client.follow [attempt.toCommit checkpoint] = (.ok (), after) →
          client.commitChanges id now (engine.reach readFails) =
            (.ok (some (attempt.toCommit checkpoint)), after.clearChanges, inner.reach readFails) := by
  rw [EventStream.commitChanges]
  by_cases clean : client.uncommitted.isEmpty = true
  · rw [if_pos clean]
    exact .inl ⟨_, _, rfl, by simp, by simp, holds⟩
  by_cases repeated : client.ids.contains id = true
  · rw [if_neg clean, if_pos repeated]
    exact .inl ⟨_, _, rfl, by simp, by simp, holds⟩
  rw [if_neg clean, if_neg repeated]
  cases made : client.attempt id now with
  | error overflow => exact .inl ⟨_, _, rfl, by simp, by simp, holds⟩
  | ok attempt =>
    dsimp only
    rw [Engine.reach_commit]
    rcases holds.commit sound attempt with
      ⟨error, inner, answered, held⟩ | ⟨checkpoint, inner, answered, taken, next, held⟩
    · rw [answered]
      cases error with
      | concurrency other sequence =>
        refine .inr (.inl ⟨other, sequence, inner, held, fun after refreshed => ?_⟩)
        dsimp only
        rw [refreshed]
      | _ => exact .inl ⟨_, _, rfl, by simp, by simp, held⟩
    · rw [answered]
      refine .inr (.inr ⟨attempt, checkpoint, inner, rfl, taken, next, held, fun after followed => ?_⟩)
      dsimp only
      rw [followed]

/-- Committing the changes of a client has one of the two outcomes. -/
theorem Follows.commitChanges (follows : client.Follows key (journal.stream key))
    (holds : engine.Holds readable journal) (sound : journal.Sound accepted)
    (known : ∀ commit ∈ journal.stream key, readable commit) (id : CommitId) (now : UInt64) (readFails : Bool) :
    ∃ answer after inner,
      client.commitChanges id now (engine.reach readFails) = (answer, after, inner.reach readFails) ∧
        Outcome readable client key journal answer after inner := by
  rcases commitChanges_cases holds sound client id now readFails with
    ⟨answer, inner, answered, nothing, -, held⟩ | ⟨other, sequence, inner, held, conflict⟩ |
      ⟨attempt, checkpoint, inner, made, taken, next, held, accepts⟩
  · exact ⟨answer, client, inner, answered, .refused nothing follows held⟩
  · obtain ⟨after, refreshed, followsAfter⟩ := follows.refresh held sound known readFails
    exact ⟨_, _, _, conflict after refreshed, .refused (by simp) followsAfter held⟩
  · obtain ⟨same, proposed, -, -⟩ := attempt_eq_ok made
    obtain ⟨entire, after, followed, followsAfter⟩ := follows.follow sound made taken next
    exact ⟨_, _, _, accepts after followed, .committed (by rw [same, follows.key]) proposed taken next entire
      (followsAfter.of_view rfl rfl rfl rfl) held⟩

end EventStream
end CommitLog
