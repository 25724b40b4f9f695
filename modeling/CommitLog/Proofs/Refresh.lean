import CommitLog.Proofs.NoLostUpdate
import CommitLog.Proofs.Resume

/-!
A client that has refreshed its view, or has just committed, sees what a client sees that is opened at that
moment (`refreshed_eq_opened`). It may have been opened in the midst of a commit, which is then read once more:
of its events those are added that were missing, and its headers are set again under the later ones.
-/

namespace CommitLog

/-- An attempt that is taken adds to a stream or leaves it as it is. -/
theorem Journal.exists_more (journal : Journal) (attempt : Attempt) (checkpoint : Checkpoint) (key : StreamKey) :
    ∃ more, (journal.accept attempt checkpoint).stream key = journal.stream key ++ more := by
  rw [stream_accept]
  split
  · exact ⟨_, rfl⟩
  · exact ⟨[], by simp⟩

namespace EventStream

/-- The view of a client that has taken in the first commits of a log, of the last ones perhaps not all events. -/
structure Covers (client : EventStream) (seen : List Commit) : Prop where
  committed : client.committed = (Commit.eventsOf seen).take client.revision.toNat
  revision : client.revision.toNat ≤ (Commit.eventsOf seen).length
  sequence : client.sequence.toNat = seen.length
  headers : client.committedHeaders = Fields.ofList (seen.flatMap fun commit => commit.headers)

/-- The view of a client that has taken in a whole log. -/
structure Entire (client : EventStream) (log : List Commit) : Prop extends client.Shows log where
  headers : client.committedHeaders = Fields.ofList (log.flatMap fun commit => commit.headers)

/-- Two clients see the same. -/
structure SameView (client other : EventStream) : Prop where
  committed : client.committed = other.committed
  revision : client.revision = other.revision
  sequence : client.sequence = other.sequence
  headers : client.committedHeaders = other.committedHeaders

variable {client other : EventStream} {log seen new : List Commit}

theorem Entire.sameView (entire : client.Entire log) (also : other.Entire log) : client.SameView other := by
  constructor
  · rw [entire.committed, also.committed]
  · rw [← UInt64.toNat_inj, entire.revision, also.revision]
  · rw [← UInt64.toNat_inj, entire.sequence, also.sequence]
  · rw [entire.headers, also.headers]

theorem Entire.covers (entire : client.Entire log) : client.Covers log := by
  constructor
  · rw [entire.committed, entire.revision, List.take_length]
  · exact Nat.le_of_eq entire.revision
  · exact entire.sequence
  · exact entire.headers

theorem Covers.create (key : StreamKey) : (create key).Covers [] := ⟨rfl, Nat.le_refl _, rfl, rfl⟩

/-- What is not committed yet is not part of the view. -/
theorem Covers.of_view (covers : client.Covers seen) (same : other.SameView client) : other.Covers seen := by
  constructor
  · rw [same.committed, same.revision, covers.committed]
  · rw [same.revision]
    exact covers.revision
  · rw [same.sequence, covers.sequence]
  · rw [same.headers, covers.headers]

/-- If a log goes on after what a client has seen, a part of it that leaves no gap begins within that. -/
theorem Covers.overlap (covers : client.Covers seen) {before chunk : List Commit} (orderly : Orderly (before ++ chunk))
    (split : before ++ chunk = seen ++ new) (early : (Commit.eventsOf before).length ≤ client.revision.toNat) :
    ∃ again, seen = before ++ again ∧ chunk = again ++ new := by
  rcases List.append_eq_append_iff.1 split with ⟨again, rfl, rfl⟩ | ⟨extra, rfl, rfl⟩
  · exact ⟨again, rfl, rfl⟩
  · have nothing : extra = [] := by
      by_contra some
      have more := @Commit.length_eventsOf_lt seen extra (fun commit member => orderly.fits commit (by simp [member])) some
      have bound := covers.revision
      omega
    subst nothing
    exact ⟨[], by simp, by simp⟩

/-- A client that takes in a part of its log that leaves no gap and goes to the end has taken in the whole log. -/
theorem Covers.taking (covers : client.Covers seen) {least most : UInt64} {before chunk : List Commit}
    (orderly : Orderly (before ++ chunk)) (split : before ++ chunk = seen ++ new)
    (early : (Commit.eventsOf before).length ≤ client.revision.toNat)
    (follows : least.toNat - 1 ≤ client.revision.toNat)
    (within : (Commit.eventsOf (before ++ chunk)).length ≤ most.toNat) :
    (client.taking least most before chunk).Entire (before ++ chunk) := by
  obtain ⟨again, rfl, rfl⟩ := covers.overlap orderly split early
  have bound := covers.revision
  have all : (Commit.eventsOf (before ++ (again ++ new))).take most.toNat =
      Commit.eventsOf (before ++ (again ++ new)) := List.take_of_length_le within
  have parts : Commit.eventsOf (before ++ (again ++ new)) =
      Commit.eventsOf (before ++ again) ++ Commit.eventsOf new := by
    rw [← List.append_assoc, Commit.eventsOf_append]
  have reached : client.revision.toNat ≤ (Commit.eventsOf (before ++ (again ++ new))).length := by
    rw [parts, List.length_append]
    omega
  have behind := skip_eq follows
  refine ⟨⟨?_, ?_, ?_⟩, ?_⟩
  · have seenPart : (Commit.eventsOf (before ++ again)).take client.revision.toNat =
        (Commit.eventsOf (before ++ (again ++ new))).take client.revision.toNat := by
      rw [parts, List.take_append_of_le_length bound]
    rw [EventStream.taking, all, behind, covers.committed, seenPart]
    exact List.take_append_drop _ _
  · rw [revision_taking follows (by rwa [all]), all]
  · have counted := orderly.sequence_foldl client.sequence
    rw [covers.sequence] at counted
    refine counted.trans ?_
    split
    · next none => simp [List.append_eq_nil_iff.1 none]
    · simp only [List.length_append]
      omega
  · have merged : (client.taking least most before (again ++ new)).committedHeaders =
        client.committedHeaders.merge ((again ++ new).flatMap fun commit => commit.headers) := rfl
    rw [merged, covers.headers, Fields.ofList, Fields.ofList, List.flatMap_append, List.flatMap_append,
      List.flatMap_append, List.flatMap_append, Fields.merge_append,
      @Fields.merge_again [] .nil, ← Fields.merge_append, List.append_assoc]

/-- The revision after the last one that a client has seen is still a word. -/
theorem Covers.sum_one (covers : client.Covers seen) (orderly : Orderly (seen ++ new)) :
    ∃ least : UInt64, Overflow.sum client.revision 1 = .ok least ∧ least.toNat = client.revision.toNat + 1 :=
  Overflow.exists_sum_one (Nat.le_trans covers.revision orderly.few)

/-- A commit that continues both the sequence and the revision of a client continues its log only if the client has
taken in all of it, the last commit to its end. -/
theorem Covers.continued (covers : client.Covers seen) {commit : Commit} (orderly : Orderly (seen ++ new ++ [commit]))
    (sequence : commit.sequence.toNat = client.sequence.toNat + 1)
    (revision : commit.revision.toNat = client.revision.toNat + commit.events.length) :
    new = [] ∧ client.revision.toNat = (Commit.eventsOf seen).length := by
  obtain ⟨ends, counts⟩ := orderly.last
  have nothing : new = [] := by
    have counted := covers.sequence
    rw [List.length_append, List.length_append, List.length_singleton] at counts
    refine List.length_eq_zero_iff.1 ?_
    omega
  subst nothing
  have one : Commit.eventsOf [commit] = commit.events := by simp [Commit.eventsOf]
  rw [List.append_nil, Commit.eventsOf_append, List.length_append, one] at ends
  exact ⟨rfl, by omega⟩

/-! ### Opening and refreshing -/

variable {readable : Commit → Prop} {engine : Engine} {journal : Journal} {accepted : List Commit} {key : StreamKey}

/-- A client that is opened up to some revision covers the commits that start no later. -/
theorem Covers.opened (holds : engine.Holds readable journal) (sound : journal.Sound accepted)
    (known : ∀ commit ∈ journal.stream key, readable commit) (most : UInt64) :
    ∃ client seen new, openWindow key 0 most engine = (.ok client, engine) ∧ client.key = key ∧
      journal.stream key = seen ++ new ∧ client.Covers seen := by
  have orderly := sound.orderly key
  obtain ⟨before, chunk, later, window⟩ := orderly.exists_window 0 most
  have first : before = [] := List.eq_nil_iff_forall_not_mem.2 fun commit member =>
    Nat.not_lt_zero _ (window.before commit member)
  subst first
  have split := window.split
  rw [List.nil_append] at split
  rw [split] at orderly
  have counted := @Orderly.sequence_foldl [] chunk orderly.left 0
  have reached := @revision_taking 0 most [] chunk (EventStream.create key) (Nat.zero_le _) (Nat.zero_le _)
  refine ⟨_, chunk, later, holds.replay sound known window, rfl, split, ?_, ?_, ?_, rfl⟩
  · rw [reached, List.length_take]
    exact List.take_eq_take_min
  · rw [reached]
    exact List.length_take_le' _ _
  · refine counted.trans ?_
    cases chunk <;> simp

/-- A client that is opened with all that is in the stream has taken in the whole log. -/
theorem Entire.opened (holds : engine.Holds readable journal) (sound : journal.Sound accepted)
    (known : ∀ commit ∈ journal.stream key, readable commit) :
    ∃ client, openWindow key 0 maxRevision engine = (.ok client, engine) ∧ client.key = key ∧
      client.Entire (journal.stream key) := by
  have orderly := sound.orderly key
  have window : Window 0 maxRevision (journal.stream key) [] (journal.stream key) [] :=
    ⟨by simp, by simp, fun commit member => ⟨Nat.zero_le _, orderly.starts member⟩, by simp⟩
  have few := @Orderly.few (journal.stream key) [] (by rwa [List.append_nil])
  exact ⟨_, holds.replay sound known window, rfl,
    @Covers.taking (EventStream.create key) [] (journal.stream key) (.create key) 0 maxRevision [] _ orderly rfl
      (Nat.zero_le _) (Nat.zero_le _) few⟩

/-- What an engine shows to a client beyond the revision that it has reached: a part of the log that leaves no gap
and goes to the end. -/
theorem populate_beyond (holds : engine.Holds readable journal) (sound : journal.Sound accepted)
    (known : ∀ commit ∈ journal.stream key, readable commit)
    (reached : client.revision.toNat ≤ (Commit.eventsOf (journal.stream key)).length) :
    ∃ least before chunk, Overflow.sum client.revision 1 = .ok least ∧ least.toNat = client.revision.toNat + 1 ∧
      journal.stream key = before ++ chunk ∧ (Commit.eventsOf before).length ≤ client.revision.toNat ∧
      CommitStore.getFrom key least maxRevision engine = (.ok (chunk.map engine.shows), engine) ∧
      populate least maxRevision (chunk.map engine.shows) client =
        (.ok (), client.taking least maxRevision before chunk) := by
  have orderly := sound.orderly key
  have few := @Orderly.few (journal.stream key) [] (by rwa [List.append_nil])
  obtain ⟨least, sum, next⟩ := Overflow.exists_sum_one (Nat.le_trans reached few)
  obtain ⟨start, before, chunk, later, early, -, window, read⟩ := holds.window sound known least maxRevision
  have last : later = [] := by
    refine List.eq_nil_iff_forall_not_mem.2 fun commit member => ?_
    have past := window.later commit member
    have started := orderly.starts (show commit ∈ journal.stream key by rw [window.split]; simp [member])
    omega
  subst last
  have skipped := window.skipped orderly
  have whole := window.split
  rw [List.append_nil] at whole
  rw [whole] at orderly
  have behind : client.skip least = client.revision.toNat := skip_eq (by omega)
  have populated := @populate_eq least maxRevision before chunk client orderly
    (fun commit member => (window.within commit member).2) (by omega)
  rw [← engine.populate_shows] at populated
  exact ⟨least, before, chunk, sum, next, whole, by omega, read, populated⟩

/-- A refresh takes in the whole log. -/
theorem Covers.refresh (covers : client.Covers seen) (same : client.key = key) (split : journal.stream key = seen ++ new)
    (holds : engine.Holds readable journal) (sound : journal.Sound accepted)
    (known : ∀ commit ∈ journal.stream key, readable commit) :
    ∃ after, client.refresh (engine.reach false) = (.ok (), after, engine.reach false) ∧ after.key = key ∧
      after.Entire (journal.stream key) := by
  have orderly := sound.orderly key
  have few := @Orderly.few (journal.stream key) [] (by rwa [List.append_nil])
  have reached : client.revision.toNat ≤ (Commit.eventsOf (journal.stream key)).length := by
    have bound := covers.revision
    rw [split, Commit.eventsOf_append, List.length_append]
    omega
  obtain ⟨least, before, chunk, sum, next, whole, early, read, populated⟩ := populate_beyond holds sound known reached
  rw [whole] at orderly few
  have entire := covers.taking orderly (whole.symm.trans split) early
    (Nat.le_of_eq (by rw [next, Nat.add_sub_cancel])) few
  rw [← whole] at entire
  refine ⟨client.taking least maxRevision before chunk, ?_, same, entire⟩
  rw [EventStream.refresh, sum]
  dsimp only
  rw [same, Engine.reach_getFrom, read]
  dsimp only
  rw [populated]

/-- A client at the end of its log takes in the commit that comes next. -/
theorem follow_eq {commit : Commit} (orderly : Orderly (log ++ [commit]))
    (ends : client.revision.toNat = (Commit.eventsOf log).length) :
    ∃ least : UInt64, least.toNat = client.revision.toNat + 1 ∧
      client.follow [commit] = (.ok (), client.taking least maxRevision log [commit]) := by
  obtain ⟨least, sum, next⟩ := Overflow.exists_sum_one (Nat.le_trans (Nat.le_of_eq ends) orderly.few)
  have behind : client.skip least = client.revision.toNat := skip_eq (by omega)
  have populated := @populate_eq least maxRevision log [commit] client orderly
    (fun commit member => orderly.starts (List.mem_append_right _ member)) (by omega)
  refine ⟨least, next, ?_⟩
  rw [EventStream.follow, sum]
  exact populated

/-! ### A client at work -/

/-- A client of a stream that covers the first commits of its log. -/
structure Tracks (client : EventStream) (key : StreamKey) (log : List Commit) : Prop where
  key : client.key = key
  view : ∃ seen new, log = seen ++ new ∧ client.Covers seen

theorem Tracks.create (key : StreamKey) (log : List Commit) : (EventStream.create key).Tracks key log :=
  ⟨rfl, [], log, rfl, .create key⟩

theorem Tracks.of_entire (same : client.key = key) (entire : client.Entire log) : client.Tracks key log :=
  ⟨same, log, [], by simp, entire.covers⟩

/-- A log that has grown is still tracked. -/
theorem Tracks.append (tracks : client.Tracks key log) (more : List Commit) : client.Tracks key (log ++ more) := by
  obtain ⟨same, seen, new, rfl, covers⟩ := tracks
  exact ⟨same, seen, new ++ more, by simp, covers⟩

theorem Tracks.of_view (tracks : client.Tracks key log) (sameKey : other.key = client.key)
    (same : other.SameView client) : other.Tracks key log := by
  obtain ⟨known, seen, new, split, covers⟩ := tracks
  exact ⟨by rw [sameKey, known], seen, new, split, covers.of_view same⟩

theorem Tracks.add (tracks : client.Tracks key log) (event : Event) : (client.add event).Tracks key log := by
  rw [EventStream.add]
  split
  · exact tracks
  · exact tracks.of_view rfl ⟨rfl, rfl, rfl, rfl⟩

/-- A client whose commit was taken has then taken in the whole log. -/
theorem Tracks.follow (tracks : client.Tracks key (journal.stream key)) (sound : journal.Sound accepted)
    {id : CommitId} {now : UInt64} {attempt : Attempt} (made : client.attempt id now = .ok attempt)
    {checkpoint : Checkpoint} (taken : attempt.refusal (journal.postings attempt.key) = none)
    (next : journal.last.next = .ok checkpoint) :
    ∃ after, client.follow [attempt.toCommit checkpoint] = (.ok (), after) ∧ after.key = key ∧
      after.Entire ((journal.accept attempt checkpoint).stream key) := by
  obtain ⟨same, seen, new, split, covers⟩ := tracks
  obtain ⟨sameKey, events, revision, sequence⟩ := attempt_eq_ok made
  rw [same] at sameKey
  have orderly := (sound.accept taken next).orderly key
  have grown := Journal.stream_accept journal attempt checkpoint key
  rw [if_pos sameKey] at grown
  rw [grown, split] at orderly
  have continues : (attempt.toCommit checkpoint).revision.toNat =
      client.revision.toNat + (attempt.toCommit checkpoint).events.length := by
    show attempt.revision.toNat = client.revision.toNat + attempt.events.length
    rw [revision, events]
  obtain ⟨nothing, behind⟩ := covers.continued orderly sequence continues
  subst nothing
  rw [List.append_nil] at split orderly
  subst split
  rw [grown]
  have few := @Orderly.few _ [] (by rwa [List.append_nil])
  obtain ⟨least, next, followed⟩ := follow_eq orderly behind
  exact ⟨_, followed, same,
    covers.taking orderly rfl (Nat.le_of_eq behind.symm) (Nat.le_of_eq (by rw [next, Nat.add_sub_cancel])) few⟩

/-- Whether a client knows its whole stream after an answer: its changes are committed, or there was a conflict and
the stream could be read. -/
def refreshed (readFails : Bool) : Except Error (Option Commit) → Bool
  | .ok (some _) => true
  | .error (.concurrency _ _) => !readFails
  | _ => false

/-- The commit of an answer. -/
def committed? : Except Error (Option Commit) → Option Commit
  | .ok commit => commit
  | .error _ => none

/-- Whatever comes of the changes of a client, the client covers a part of the log, and all of it if it has read it. -/
theorem Tracks.commitChanges (tracks : client.Tracks key (journal.stream key))
    (holds : engine.Holds readable journal) (sound : journal.Sound accepted)
    (known : ∀ commit ∈ journal.stream key, readable commit) (id : CommitId) (now : UInt64) (readFails : Bool) :
    ∃ (answer : Except Error (Option Commit)) (after : EventStream) (inner : Engine) (grown : Journal),
      client.commitChanges id now (engine.reach readFails) = (answer, after, inner.reach readFails) ∧
        grown.Sound (accepted ++ (committed? answer).toList) ∧ inner.Holds readable grown ∧
        (∃ more, grown.stream key = journal.stream key ++ more) ∧ after.Tracks key (grown.stream key) ∧
        (refreshed readFails answer = true → after.Entire (grown.stream key)) := by
  rcases commitChanges_cases holds sound client id now readFails with
    ⟨answer, inner, answered, nothing, calm, held⟩ | ⟨other, sequence, inner, held, conflict⟩ |
      ⟨attempt, checkpoint, inner, made, taken, next, held, accepts⟩
  · have none : committed? answer = none := by
      rcases answer with error | _ | commit
      · rfl
      · rfl
      · exact absurd rfl (nothing commit)
    refine ⟨answer, client, inner, journal, answered, ?_, held, ⟨[], by simp⟩, tracks, fun read => ?_⟩
    · rw [none]
      simpa using sound
    · rcases answer with error | _ | commit
      · cases error with
        | concurrency other sequence => exact absurd rfl (calm other sequence)
        | _ => contradiction
      · contradiction
      · exact absurd rfl (nothing commit)
  · cases readFails with
    | true =>
      have refreshed : client.refresh (inner.reach true) = (.ok (), client, inner.reach true) := by
        obtain ⟨same, seen, new, split, covers⟩ := tracks
        obtain ⟨least, sum, -⟩ := covers.sum_one (split ▸ sound.orderly key)
        rw [EventStream.refresh, sum]
        rfl
      exact ⟨_, _, _, _, conflict client refreshed, by simpa [committed?] using sound, held, ⟨[], by simp⟩, tracks,
        fun read => by contradiction⟩
    | false =>
      obtain ⟨same, seen, new, split, covers⟩ := tracks
      obtain ⟨after, refreshed, keyAfter, entire⟩ := covers.refresh same split held sound known
      exact ⟨_, _, _, _, conflict after refreshed, by simpa [committed?] using sound, held, ⟨[], by simp⟩,
        .of_entire keyAfter entire, fun _ => entire⟩
  · obtain ⟨after, followed, keyAfter, entire⟩ := tracks.follow sound made taken next
    have cleared : after.clearChanges.Entire ((journal.accept attempt checkpoint).stream key) :=
      ⟨⟨entire.committed, entire.revision, entire.sequence⟩, entire.headers⟩
    exact ⟨_, _, _, _, accepts after followed, sound.accept taken next, held, journal.exists_more attempt checkpoint key,
      .of_entire keyAfter cleared, fun _ => cleared⟩

end EventStream

namespace Desk

/-- The engine holds a journal of the commits `accepted`, and each client covers a part of its stream. -/
structure Tracked (readable : Commit → Prop) (key : StreamKey) (desk : Desk) (journal : Journal)
    (accepted : List Commit) : Prop where
  holds : desk.engine.Holds readable journal
  sound : journal.Sound accepted
  clients : ∀ number client, desk.clients number = some client → client.Tracks key (journal.stream key)

variable {readable : Commit → Prop} {key : StreamKey} {desk : Desk} {journal : Journal} {accepted : List Commit}

/-- A client in another state, or a new one, that tracks the stream. -/
theorem Tracked.seat (tracked : desk.Tracked readable key journal accepted) (number : Nat) {seat : Option EventStream}
    (tracks : ∀ client, seat = some client → client.Tracks key (journal.stream key)) :
    Tracked readable key { desk with clients := Function.update desk.clients number seat } journal accepted :=
  ⟨tracked.holds, tracked.sound, forall_update tracked.clients number tracks⟩

theorem Tracked.edit (tracked : desk.Tracked readable key journal accepted) (number : Nat)
    {change : EventStream → EventStream}
    (still : ∀ client, client.Tracks key (journal.stream key) → (change client).Tracks key (journal.stream key)) :
    (desk.edit number change).Tracked readable key journal accepted := by
  refine tracked.seat number fun client found => ?_
  obtain ⟨before, seated, rfl⟩ := Option.map_eq_some_iff.1 found
  exact still before (tracked.clients number before seated)

/-- An engine on which the stream has only grown. -/
theorem Tracked.grow (tracked : desk.Tracked readable key journal accepted) {engine : Engine} {grown : Journal}
    {new : List Commit} (holds : engine.Holds readable grown) (sound : grown.Sound (accepted ++ new))
    (grows : ∃ more, grown.stream key = journal.stream key ++ more) :
    Tracked readable key { desk with engine } grown (accepted ++ new) := by
  refine ⟨holds, sound, fun number client seated => ?_⟩
  obtain ⟨more, split⟩ := grows
  rw [split]
  exact (tracked.clients number client seated).append more

/-- A move that accepts nothing and leaves the log as it is. -/
theorem Tracked.quiet (tracked : desk.Tracked readable key journal accepted) :
    ∃ journal, desk.Tracked readable key journal (accepted ++ ((none : Option Accepted).map Accepted.commit).toList) := by
  rw [Option.map_none, Option.toList_none, List.append_nil]
  exact ⟨journal, tracked⟩

theorem act_commitChanges {number : Nat} {client after : EventStream} (seated : desk.clients number = some client)
    {id : CommitId} {now : UInt64} {readFails : Bool} {answer : Except Error (Option Commit)} {inner : Engine}
    (answered : client.commitChanges id now (desk.engine.reach readFails) = (answer, after, inner.reach readFails)) :
    (desk.act key (.commitChanges number id now readFails)).1.map Accepted.commit = EventStream.committed? answer ∧
      (desk.act key (.commitChanges number id now readFails)).2 =
        ⟨inner, Function.update desk.clients number (some after)⟩ := by
  rw [act, seated]
  dsimp only
  rw [answered]
  rcases answer with error | _ | commit <;> exact ⟨rfl, rfl⟩

/-- One move: the stream may grow, and the clients still cover a part of it. -/
theorem act_tracked (tracked : desk.Tracked readable key journal accepted)
    (read : ∀ commit ∈ accepted, commit.key = key → readable commit) (move : Move) :
    ∃ after, (desk.act key move).2.Tracked readable key after
      (accepted ++ ((desk.act key move).1.map Accepted.commit).toList) := by
  have known := tracked.sound.forall_stream read
  have seated : ∀ number {client : EventStream}, client.Tracks key (journal.stream key) → Tracked readable key
      { desk with clients := Function.update desk.clients number (some client) } journal accepted := by
    intro number client tracks
    refine tracked.seat number fun other found => ?_
    cases found
    exact tracks
  cases move with
  | create number => exact (seated number (.create key _)).quiet
  | openWhole number =>
    obtain ⟨client, opened, same, entire⟩ := EventStream.Entire.opened tracked.holds tracked.sound known
    rw [act, opened]
    exact (seated number (.of_entire same entire)).quiet
  | add number event => exact (tracked.edit number fun client tracks => tracks.add event).quiet
  | addHeader number name value =>
    exact Tracked.quiet (tracked.edit number fun client tracks => tracks.of_view rfl ⟨rfl, rfl, rfl, rfl⟩)
  | removeHeader number name =>
    exact Tracked.quiet (tracked.edit number fun client tracks => tracks.of_view rfl ⟨rfl, rfl, rfl, rfl⟩)
  | clearChanges number =>
    exact Tracked.quiet (tracked.edit number fun client tracks => tracks.of_view rfl ⟨rfl, rfl, rfl, rfl⟩)
  | commitChanges number id now readFails =>
    cases present : desk.clients number with
    | none =>
      rw [act, present]
      exact tracked.quiet
    | some client =>
      obtain ⟨answer, after, inner, grown, answered, sound, held, grows, tracks, -⟩ :=
        (tracked.clients number client present).commitChanges tracked.holds tracked.sound known id now readFails
      obtain ⟨made, left⟩ := @act_commitChanges key _ _ _ _ present _ _ _ _ _ answered
      rw [made, left]
      refine ⟨grown, (tracked.grow held sound grows).seat number fun other found => ?_⟩
      cases found
      exact tracks
  | commit attempt =>
    rcases tracked.holds.commit tracked.sound attempt with
      ⟨error, engine, answered, holds⟩ | ⟨checkpoint, engine, answered, taken, next, holds⟩
    · rw [act, answered]
      exact Tracked.quiet ⟨holds, tracked.sound, tracked.clients⟩
    · rw [act, answered]
      exact ⟨_, tracked.grow holds (tracked.sound.accept taken next) (journal.exists_more attempt checkpoint key)⟩

/-- All moves of a run. -/
theorem actAll_tracked (tracked : desk.Tracked readable key journal accepted) (moves : List Move)
    (read : ∀ commit ∈ accepted ++ (actAll key moves desk).1.map Accepted.commit, commit.key = key → readable commit) :
    ∃ after, (actAll key moves desk).2.Tracked readable key after
      (accepted ++ (actAll key moves desk).1.map Accepted.commit) := by
  induction moves generalizing desk journal accepted with
  | nil => exact ⟨journal, by simpa [actAll] using tracked⟩
  | cons move moves ih =>
    obtain ⟨middle, kept⟩ := act_tracked tracked (fun commit member => read commit (by simp [member])) move
    have parts : (actAll key (move :: moves) desk).1.map Accepted.commit =
        ((desk.act key move).1.map Accepted.commit).toList ++
          (actAll key moves (desk.act key move).2).1.map Accepted.commit := by
      rw [actAll, List.map_append, Option.toList_map]
    rw [parts, ← List.append_assoc] at read ⊢
    exact ih kept read

end Desk

/-! ### Refreshed is opened -/

/-- Clients of a stream are opened up to any revision, in any state that a run can reach, or are created later, and
work on it beside other writers. When one of them has committed its changes, or has refreshed its view after a
conflict, it sees what a client sees that is opened at that moment. -/
theorem refreshed_eq_opened {engine : Engine} (fresh : engine.Fresh) {earlier : List Call} (kept : .dispose ∉ earlier)
    (key : StreamKey) (clients : Nat → Option EventStream) (moves : List Desk.Move) :
    let before := Call.serveAll earlier engine
    let run := Desk.actAll key moves ⟨before.2, clients⟩
    (∀ number client, clients number = some client →
        ∃ most, (EventStream.openWindow key 0 most before.2).1 = .ok client) →
      (∀ commit ∈ Call.accepted before.1 ++ run.1.map Accepted.commit, commit.key = key → engine.Restores commit) →
        ∀ number client, run.2.clients number = some client → ∀ id now readFails,
          let last := client.commitChanges id now (run.2.engine.reach readFails)
          (∀ commit, last.1 = .ok (some commit) → engine.Restores commit) → EventStream.refreshed readFails last.1 = true →
            ∃ opened, EventStream.openWindow key 0 maxRevision last.2.2.inner = (.ok opened, last.2.2.inner) ∧
              last.2.1.SameView opened := by
  intro before run opened restores number client seated id now readFails last readable refreshed
  obtain ⟨journal, sound, headed⟩ := fresh.headed.serveAll .empty kept
  rw [List.nil_append] at sound
  have start : Desk.Tracked engine.Restores key ⟨before.2, clients⟩ journal (Call.accepted before.1) := by
    refine ⟨headed.holds, sound, fun number client found => ?_⟩
    have known := sound.forall_stream fun commit member => restores commit (List.mem_append_left _ member)
    obtain ⟨most, asked⟩ := opened number client found
    obtain ⟨same, seen, new, answered, sameKey, split, covers⟩ := EventStream.Covers.opened headed.holds sound known most
    rw [answered] at asked
    cases asked
    exact ⟨sameKey, seen, new, split, covers⟩
  obtain ⟨middle, tracked⟩ := Desk.actAll_tracked start moves restores
  obtain ⟨answer, after, inner, grown, answered, soundAfter, held, -, tracks, entire⟩ :=
    (tracked.clients number client seated).commitChanges tracked.holds tracked.sound
      (tracked.sound.forall_stream restores) id now readFails
  have found : last = (answer, after, inner.reach readFails) := answered
  rw [found] at readable refreshed ⊢
  have known : ∀ commit ∈ grown.stream key, engine.Restores commit := by
    refine soundAfter.forall_stream fun commit member same => ?_
    rcases List.mem_append.1 member with earlier | new
    · exact restores commit earlier same
    · refine readable commit ?_
      rcases answer with error | _ | made
      · contradiction
      · contradiction
      · rw [List.mem_singleton.1 new]
  obtain ⟨whole, read, -, shows⟩ := EventStream.Entire.opened held soundAfter known
  exact ⟨whole, read, (entire refreshed).sameView shows⟩

/-- A client that is opened in the midst of a commit, after which another writer comes first. -/
theorem refreshed_eq_opened_inside_commit :
    let key : StreamKey := ⟨⟨"orders"⟩, ⟨"7"⟩⟩
    let attempt (name author : String) (revision sequence : UInt64) (events : List Event) : Attempt :=
      ⟨key.bucket, key.stream, revision, ⟨name⟩, sequence, 0, [("author", .text author)], events⟩
    let before := Call.serveAll [.commit (attempt "placed" "ann" 2 1 [{ body := [1] }, { body := [2] }])]
      (.memory (MemoryStore.create {}) : Engine)
    let clients (number : Nat) := if number = 0 then (EventStream.openWindow key 0 1 before.2).1.toOption else none
    let run := Desk.actAll key [.add 0 { body := [4] }, .commit (attempt "paid" "bob" 3 2 [{ body := [3] }])]
      ⟨before.2, clients⟩
    ∃ client, run.2.clients 0 = some client ∧
      let last := client.commitChanges ⟨"sent"⟩ 0 (run.2.engine.reach false)
      EventStream.refreshed false last.1 = true ∧
        ∃ opened, EventStream.openWindow key 0 maxRevision last.2.2.inner = (.ok opened, last.2.2.inner) ∧
          last.2.1.SameView opened ∧
          (last.2.1.committed.map Event.body, last.2.1.revision, last.2.1.sequence) = ([[1], [2], [3]], 3, 2) ∧
          Codec.renderHeaders last.2.1.committedHeaders = Codec.renderHeaders [("author", .text "bob")] := by
  intro key attempt before clients run
  have kept : .dispose ∉ [Call.commit (attempt "placed" "ann" 2 1 [{ body := [1] }, { body := [2] }])] := by simp
  have opened : ∀ number client, clients number = some client →
      ∃ most, (EventStream.openWindow key 0 most before.2).1 = .ok client := by
    intro number client found
    refine ⟨1, ?_⟩
    by_cases first : number = 0
    · have same : (EventStream.openWindow key 0 1 before.2).1.toOption = some client := by
        rw [← found]
        exact (if_pos first).symm
      cases asked : (EventStream.openWindow key 0 1 before.2).1 with
      | error => rw [asked] at same; contradiction
      | ok other =>
        rw [asked] at same
        cases same
        rfl
    · have none : clients number = none := if_neg first
      rw [none] at found
      contradiction
  have outcome : (run.2.clients 0).map (fun client =>
      let last := client.commitChanges ⟨"sent"⟩ 0 (run.2.engine.reach false)
      (EventStream.refreshed false last.1, (last.2.1.committed.map Event.body, last.2.1.revision, last.2.1.sequence),
        Codec.renderHeaders last.2.1.committedHeaders)) =
        some (true, ([[1], [2], [3]], 3, 2), Codec.renderHeaders [("author", .text "bob")]) := by
    decide +kernel
  cases seated : run.2.clients 0 with
  | none =>
    rw [seated] at outcome
    contradiction
  | some client =>
    rw [seated] at outcome
    obtain ⟨refreshed, rest⟩ := Prod.mk.inj (Option.some.inj outcome)
    obtain ⟨shown, headers⟩ := Prod.mk.inj rest
    obtain ⟨whole, read, same⟩ := refreshed_eq_opened (.memory {}) kept key clients _ opened
      (fun _ _ _ => trivial) 0 client seated ⟨"sent"⟩ 0 false (fun _ _ => trivial) refreshed
    exact ⟨client, rfl, refreshed, whole, read, same, shown, headers⟩

end CommitLog
