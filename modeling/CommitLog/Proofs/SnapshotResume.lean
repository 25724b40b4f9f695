import CommitLog.Proofs.WholeCommit
import CommitLog.Proofs.Writing

/-!
Streams that are resumed from the snapshots that have been added to them. A store takes a snapshot of any revision,
wherever the stream is. From one that is not ahead of its stream a client is resumed at the end of the log, and its
changes become the next commit (`Reflects.resume`). From one that is ahead a client is resumed where the log has not
come: it has counted no commit, so that its attempts conflict with the first, and a refresh asks only for what lies
beyond the snapshot, so that the client stays where it is (`Reflects.stuck`).
-/

namespace CommitLog

/-- The largest word: a window up to it goes to the end of every log. -/
def EventStream.endless : UInt64 := 18446744073709551615

/-- A word comes back from its column, or the largest revision in its place. -/
theorem Column.toWord_ofWord_eq (n : UInt64) : toWord (ofWord n) = min n maxRevision := by
  have least := toNat_min n maxRevision
  by_cases small : n.toNat ≤ maxRevision.toNat
  · rw [toWord_ofWord small, ← UInt64.toNat_inj]
    omega
  · have stored : ofWord n = Int64.maxValue := if_neg (by rw [UInt64.le_iff_toNat_le]; exact small)
    have largest : toWord Int64.maxValue = maxRevision := rfl
    rw [stored, largest, ← UInt64.toNat_inj]
    omega

/-! ### Snapshots -/

/-- The newest snapshot up to the revision of one that is kept is that snapshot. -/
theorem MemoryStore.snapshot_own {store : MemoryStore} {snapshot : Snapshot} (isOpen : store.disposed = false)
    (single : History.Single Snapshot.revision store.snapshots) (added : snapshot ∈ store.snapshots) :
    store.snapshot snapshot.key snapshot.revision = .ok (some snapshot) := by
  have listed : snapshot ∈ store.snapshots.filter fun other =>
      other.key = snapshot.key ∧ other.revision ≤ snapshot.revision :=
    List.mem_filter.2 ⟨added, decide_eq_true ⟨rfl, UInt64.le_refl _⟩⟩
  rw [MemoryStore.snapshot, ensureOpen_of_open isOpen]
  cases rows : store.snapshots.filter fun other => other.key = snapshot.key ∧ other.revision ≤ snapshot.revision with
  | nil => rw [rows] at listed; contradiction
  | cons first others =>
    obtain ⟨found, member, newest, greatest⟩ := newest_cons first others
    rw [← rows] at member greatest
    have most := greatest snapshot listed
    obtain ⟨inside, bound⟩ := List.mem_filter.1 member
    obtain ⟨sameKey, least⟩ := of_decide_eq_true bound
    rw [UInt64.le_iff_toNat_le] at least
    have sameRevision : found.revision = snapshot.revision := UInt64.toNat_inj.1 (by omega)
    have same : found = snapshot := List.inj_on_of_nodup_map single inside added (Prod.ext sameKey sameRevision)
    rw [← same]
    exact congrArg Except.ok newest

theorem Database.snapshot?_own {db : Database} {snapshots : List Snapshot} {snapshot : Snapshot}
    (rows : db.snapshots = snapshots.map Snapshot.row)
    (single : History.Single (fun snapshot => snapshot.row.revision) snapshots) (added : snapshot ∈ snapshots) :
    db.snapshot? snapshot.key snapshot.revision = some snapshot.row := by
  refine head?_mergeSort ?_ ?_ ?_
  · rw [rows]
    exact List.mem_filter.2 ⟨List.mem_map_of_mem added, decide_eq_true ⟨rfl, Int64.le_refl _⟩⟩
  · intro row member
    exact Int64.le_iff_toInt_le.1 (of_decide_eq_true (List.mem_filter.1 member).2).2
  · intro row member same
    obtain ⟨inside, bound⟩ := List.mem_filter.1 member
    rw [rows] at inside
    obtain ⟨other, known, rfl⟩ := List.mem_map.1 inside
    rw [List.inj_on_of_nodup_map single known added
      (Prod.ext (of_decide_eq_true bound).1 (Int64.toInt_inj.1 same))]

namespace Engine

variable {engine : Engine} {history : History} {journal : Journal} {key : StreamKey} {snapshot : Snapshot}

/-- A snapshot as an engine gives it back: in a database the largest revision stands for all that are larger. -/
def givesBack : Engine → Snapshot → Snapshot
  | .memory _, snapshot => snapshot
  | .database _, snapshot => { snapshot with revision := min snapshot.revision maxRevision }

theorem key_givesBack (engine : Engine) (snapshot : Snapshot) : (engine.givesBack snapshot).key = snapshot.key := by
  cases engine <;> rfl

/-- A snapshot that has been added is given back. -/
theorem Reflects.givenBack (reflects : engine.Reflects history journal)
    (isOpen : CommitStore.isDisposed engine = false) (added : snapshot ∈ history.snapshots) :
    CommitStore.snapshot snapshot.key snapshot.revision engine = (.ok (some (engine.givesBack snapshot)), engine) := by
  cases reflects with
  | @memory store ledger keeps sound inStep snapshots single =>
    have kept : store.snapshots = history.snapshots := keeps.snapshots.trans snapshots
    show (store.snapshot snapshot.key snapshot.revision, Engine.memory store) = _
    rw [MemoryStore.snapshot_own isOpen (by rwa [kept]) (by rwa [kept])]
    rfl
  | @database store _ holds sound inStep snapshots single recalls =>
    have revision : Column.toWord snapshot.row.revision = min snapshot.revision maxRevision :=
      Column.toWord_ofWord_eq snapshot.revision
    show (store.snapshot snapshot.key snapshot.revision, Engine.database store) = _
    rw [DatabaseStore.snapshot, DatabaseStore.query_eq isOpen, Database.snapshot?_own snapshots single added,
      Option.map_some, SnapshotRow.toSnapshot, revision]
    rfl

/-- Only a stream that has commits has snapshots. -/
theorem Reflects.stream_ne_nil (reflects : engine.Reflects history journal) (added : snapshot ∈ history.snapshots) :
    journal.stream snapshot.key ≠ [] := by
  intro bare
  cases reflects with
  | @memory store ledger keeps sound inStep snapshots =>
    have nothing := (inStep snapshot.key).snapshots bare
    rw [Ledger.snapshotsOf, snapshots] at nothing
    exact List.filter_eq_nil_iff.1 nothing snapshot added (decide_eq_true rfl)
  | @database store _ holds sound inStep snapshots =>
    have rows : store.db.stream snapshot.key = [] := by
      rw [Journal.stream_eq_map, List.map_eq_nil_iff] at bare
      rw [holds.stream_eq, bare]
      rfl
    have nothing := (inStep snapshot.key).snapshots rows
    rw [Database.snapshotsOf, snapshots] at nothing
    exact List.filter_eq_nil_iff.1 nothing snapshot.row (List.mem_map_of_mem added) (decide_eq_true rfl)

/-! ### Resuming -/

/-- Stores that read alike and are left as they are by it are resumed from alike. -/
theorem resume_of_reads {σ τ : Type} [CommitStore σ] [CommitStore τ] {store : σ} {other : τ}
    (reads : ∀ least most, ∃ answer, CommitStore.getFrom snapshot.key least most store = (answer, store) ∧
      CommitStore.getFrom snapshot.key least most other = (answer, other)) (most : UInt64) :
    ∃ answer, EventStream.resume snapshot most store = (answer, store) ∧
      EventStream.resume snapshot most other = (answer, other) := by
  rw [EventStream.resume, EventStream.resume]
  cases Overflow.sum snapshot.revision 1 with
  | error overflow => exact ⟨_, rfl, rfl⟩
  | ok least =>
    dsimp only
    obtain ⟨answer, first, second⟩ := reads least most
    rw [first, second]
    cases answer with
    | error error => exact ⟨_, rfl, rfl⟩
    | ok commits =>
      dsimp only
      split
      · exact ⟨_, rfl, rfl⟩
      split
      · obtain ⟨covering, third, fourth⟩ := reads snapshot.revision snapshot.revision
        rw [third, fourth]
        cases covering <;> exact ⟨_, rfl, rfl⟩
      · exact ⟨_, rfl, rfl⟩

/-- What an engine remembers is not asked for when a stream is resumed. -/
theorem resume_forgetful (engine : Engine) (snapshot : Snapshot) (most : UInt64) :
    EventStream.resume snapshot most engine = ((EventStream.resume snapshot most engine.forgetful).1, engine) := by
  obtain ⟨answer, first, second⟩ := @resume_of_reads snapshot _ _ _ _ engine engine.forgetful
    (fun least most => ⟨_, engine.getFrom_forgetful least most, by cases engine <;> rfl⟩) most
  rw [first, second]

section Open

variable (reflects : engine.Reflects history journal) (isOpen : CommitStore.isDisposed engine = false)
include reflects isOpen

/-- What an engine shows are commits of the stream. -/
theorem Reflects.read (known : ∀ commit ∈ journal.stream key, engine.Restores commit) (least most : UInt64) :
    ∃ shown, CommitStore.getFrom key least most engine = (.ok shown, engine) ∧
      ∀ other ∈ shown, ∃ commit ∈ journal.stream key, commit.id = other.id := by
  obtain ⟨_, before, chunk, later, -, -, window, read⟩ :=
    (reflects.headed isOpen).holds.window reflects.sound known least most
  refine ⟨chunk.map engine.shows, by rw [engine.getFrom_forgetful, read, engine.shows_forgetful], fun other member => ?_⟩
  obtain ⟨commit, inside, rfl⟩ := List.mem_map.1 member
  have same : (engine.shows commit).id = commit.id := by cases engine <;> rfl
  exact ⟨commit, by rw [window.split]; simp [inside], same.symm⟩

/-- A resumed client knows only ids of its stream. -/
theorem Reflects.resumed_knows (known : ∀ commit ∈ journal.stream snapshot.key, engine.Restores commit) {most : UInt64}
    {client : EventStream} (resumed : (EventStream.resume snapshot most engine).1 = .ok client) :
    client.key = snapshot.key ∧ ∀ id ∈ client.ids, ∃ commit ∈ journal.stream snapshot.key, commit.id = id := by
  rw [EventStream.resume] at resumed
  split at resumed
  · cases resumed
  next least sum =>
  obtain ⟨shown, read, ofStream⟩ := reflects.read isOpen known least most
  rw [read] at resumed
  dsimp only at resumed
  have takes := EventStream.populate_takesIn least most shown
    { EventStream.create snapshot.key with revision := snapshot.revision }
  split at resumed
  · cases resumed
  next view populated =>
  rw [populated] at takes
  have learnt : ∀ id ∈ view.ids, ∃ commit ∈ journal.stream snapshot.key, commit.id = id := by
    intro id member
    rcases takes.learnt id member with none | ⟨other, inside, same⟩
    · contradiction
    · exact same ▸ ofStream other inside
  split at resumed
  · obtain ⟨covering, readAgain, ofStreamAgain⟩ := reflects.read isOpen known snapshot.revision snapshot.revision
    rw [readAgain] at resumed
    cases resumed
    rw [EventStream.adoptLast]
    cases last : covering.getLast? with
    | none => exact ⟨takes.key, learnt⟩
    | some commit =>
      refine ⟨takes.key, fun id member => ?_⟩
      rcases List.mem_insert_iff.1 member with rfl | earlier
      · exact ofStreamAgain commit (List.mem_of_getLast? last)
      · exact learnt id earlier
  · cases resumed
    exact ⟨takes.key, learnt⟩

/-- From a snapshot that is not ahead of its stream, a client is resumed at the end of the log. -/
theorem Reflects.resume (known : ∀ commit ∈ journal.stream snapshot.key, engine.Restores commit) {most : UInt64}
    (covered : snapshot.revision.toNat ≤ (Commit.eventsOf (journal.stream snapshot.key)).length)
    (whole : (Commit.eventsOf (journal.stream snapshot.key)).length ≤ most.toNat) :
    ∃ client, EventStream.resume snapshot most engine = (.ok client, engine) ∧
      client.Stands snapshot.key (journal.stream snapshot.key) (Commit.eventsOf (journal.stream snapshot.key)).length := by
  have sound := reflects.sound
  have orderly := sound.orderly snapshot.key
  obtain ⟨replayed, resumed, opened, answered, continues⟩ := (reflects.headed isOpen).holds.resume sound known covered
    (UInt64.le_iff_toNat_le.2 (Nat.le_trans covered whole))
  have found : (EventStream.openWindow snapshot.key 0 most engine).1 = .ok replayed := by
    rw [engine.openWindow_forgetful, opened]
  have result : EventStream.resume snapshot most engine = (.ok resumed, engine) := by
    rw [engine.resume_forgetful, answered]
  obtain ⟨seen, later, split, stands, -, beyond⟩ := EventStream.opened_stands reflects isOpen known found
  -- No commit starts beyond the window, so that the replayed client has counted them all.
  have last : later = [] := by
    refine List.eq_nil_iff_forall_not_mem.2 fun commit member => ?_
    have inStream : commit ∈ journal.stream snapshot.key ++ [] := by
      rw [split]
      simp [member]
    have reached := (@Orderly.known (journal.stream snapshot.key) [] (by rwa [List.append_nil]) commit
      (by rwa [List.append_nil] at inStream)).1
    have events := List.length_pos_iff.2 (orderly.fits commit (by rwa [List.append_nil] at inStream)).events
    have past := beyond commit member
    omega
  rw [last, List.append_nil] at split
  rw [← split, Nat.min_eq_right whole] at stands
  obtain ⟨sameKey, learnt⟩ := reflects.resumed_knows isOpen known (congrArg Prod.fst result)
  refine ⟨resumed, result, sameKey, ?_, ?_, learnt⟩
  · rw [continues.revision, stands.revision]
  · rw [continues.sequence, stands.sequence]

/-! ### Ahead of the stream -/

/-- Beyond a snapshot that is ahead of its stream there is nothing to be read. -/
theorem Reflects.getFrom_ahead
    (ahead : (Commit.eventsOf (journal.stream snapshot.key)).length < (engine.givesBack snapshot).revision.toNat)
    {least : UInt64} (later : (engine.givesBack snapshot).revision ≤ least)
    (known : ∀ commit ∈ journal.stream snapshot.key, engine.Restores commit) (most : UInt64) :
    CommitStore.getFrom snapshot.key least most engine = (.ok [], engine) := by
  rw [UInt64.le_iff_toNat_le] at later
  have nothing : ∀ start : UInt64, (engine.givesBack snapshot).revision.toNat ≤ start.toNat →
      (journal.stream snapshot.key).filter (Commit.overlaps start most) = [] := by
    intro start reached
    refine List.filter_eq_nil_iff.2 fun commit member => ?_
    have orderly := reflects.sound.orderly snapshot.key
    have bound := (@Orderly.known (journal.stream snapshot.key) [] (by rwa [List.append_nil]) commit member).1
    simp [Commit.overlaps]
    omega
  cases reflects with
  | @memory store ledger keeps sound =>
    show (store.getFrom snapshot.key least most, Engine.memory store) = _
    rw [MemoryStore.getFrom_eq keeps sound isOpen]
    exact congrArg (fun commits => (Except.ok commits, Engine.memory store)) (nothing least later)
  | @database store _ holds sound =>
    have small : (min snapshot.revision maxRevision).toNat ≤ maxRevision.toNat := by
      rw [toNat_min]
      exact Nat.min_le_right _ _
    show (store.getFrom snapshot.key least most, Engine.database store) = _
    rw [DatabaseStore.getFrom_eq holds sound known isOpen, nothing]
    · rfl
    · rw [toNat_min]
      exact Nat.le_min.2 ⟨later, small⟩

/-- From a snapshot that is ahead of its stream, a client is resumed as the snapshot leaves it. -/
theorem Reflects.resume_ahead (known : ∀ commit ∈ journal.stream snapshot.key, engine.Restores commit)
    (ahead : (Commit.eventsOf (journal.stream snapshot.key)).length < (engine.givesBack snapshot).revision.toNat)
    {least : UInt64} (sum : Overflow.sum (engine.givesBack snapshot).revision 1 = .ok least) (most : UInt64) :
    EventStream.resume (engine.givesBack snapshot) most engine =
      (.ok (EventStream.ofSnapshot (engine.givesBack snapshot)), engine) := by
  have further : (engine.givesBack snapshot).revision ≤ least := by
    rw [UInt64.le_iff_toNat_le, Overflow.sum_eq_ok sum]
    exact Nat.le_add_right _ _
  have read := reflects.getFrom_ahead isOpen ahead further known most
  have readAgain := reflects.getFrom_ahead isOpen ahead (UInt64.le_refl _) known (engine.givesBack snapshot).revision
  rw [← engine.key_givesBack] at read readAgain
  rw [EventStream.resume_eq sum read rfl, readAgain]
  rfl

/-- A stream that has commits refuses every attempt to be the first. -/
theorem Reflects.refuses_first (room : history.accepted.length < 2 ^ 63 - 1) {attempt : Attempt}
    (some : journal.stream attempt.key ≠ []) (first : attempt.sequence.toNat = 1)
    (fresh : ∀ commit ∈ history.accepted, commit.key = attempt.key → commit.id ≠ attempt.id) :
    ∃ error, CommitStore.commit attempt engine = (.error error, engine) := by
  have decided := (reflects.commit isOpen room fresh).1
  cases taken : attempt.refusal (journal.postings attempt.key) with
  | some error => exact ⟨error, decided error taken⟩
  | none =>
    obtain ⟨-, -, -, place, -⟩ := Attempt.refusal_eq_none.1 taken
    have length := List.length_pos_iff.2 some
    rw [Journal.postings, List.length_map] at place
    omega

/-- A client that is ahead of its stream asks only for what lies further ahead. -/
theorem Reflects.refresh_ahead (known : ∀ commit ∈ journal.stream snapshot.key, engine.Restores commit)
    (ahead : (Commit.eventsOf (journal.stream snapshot.key)).length < (engine.givesBack snapshot).revision.toNat)
    {client : EventStream} (key : client.key = snapshot.key)
    (revision : client.revision = (engine.givesBack snapshot).revision) {least : UInt64}
    (sum : Overflow.sum client.revision 1 = .ok least) : client.refresh engine = (.ok (), client, engine) := by
  have further : (engine.givesBack snapshot).revision ≤ least := by
    rw [← revision, UInt64.le_iff_toNat_le, Overflow.sum_eq_ok sum]
    exact Nat.le_add_right _ _
  rw [EventStream.refresh, sum]
  dsimp only
  rw [key, reflects.getFrom_ahead isOpen ahead further known]
  rfl

/-- Such a client cannot commit anything, and is left as it was. -/
theorem Reflects.stuck (room : history.accepted.length < 2 ^ 63 - 1) (added : snapshot ∈ history.snapshots)
    (known : ∀ commit ∈ journal.stream snapshot.key, engine.Restores commit)
    (ahead : (Commit.eventsOf (journal.stream snapshot.key)).length < (engine.givesBack snapshot).revision.toNat)
    {client : EventStream} (stands : client.Stands snapshot.key [] (engine.givesBack snapshot).revision.toNat)
    (dirty : client.uncommitted ≠ []) {id : CommitId}
    (fresh : ∀ commit ∈ history.accepted, commit.key = snapshot.key → commit.id ≠ id) (now : UInt64) :
    ∃ error, client.commitChanges id now engine = (.error error, client, engine) := by
  have size : UInt64.size = 18446744073709551616 := rfl
  have refused : ∀ {attempt}, client.attempt id now = .ok attempt →
      ∃ error, CommitStore.commit attempt engine = (.error error, engine) := by
    intro attempt made
    obtain ⟨sameKey, -, -, first⟩ := EventStream.attempt_eq_ok made
    obtain ⟨named, -⟩ := EventStream.attempt_named made
    rw [stands.key] at sameKey
    rw [stands.sequence] at first
    exact reflects.refuses_first isOpen room (by rw [sameKey]; exact reflects.stream_ne_nil added) first
      (by rwa [sameKey, named])
  have refreshed : ∀ {attempt}, client.attempt id now = .ok attempt →
      client.refresh engine = (.ok (), client, engine) := by
    intro attempt made
    obtain ⟨-, -, reached, -⟩ := EventStream.attempt_eq_ok made
    have changes := List.length_pos_iff.2 dirty
    have bound := attempt.revision.toNat_lt
    have sum : Overflow.sum client.revision 1 = .ok _ := if_pos (by omega)
    exact reflects.refresh_ahead isOpen known ahead stands.key (UInt64.toNat_inj.1 stands.revision) sum
  have ended := client.ending id now engine
  generalize client.commitChanges id now engine = outcome at ended ⊢
  cases ended with
  | nothing clean => exact absurd clean dirty
  | known member =>
    obtain ⟨commit, inside, -⟩ := stands.ids id member
    contradiction
  | unmade made => exact ⟨_, rfl⟩
  | refused made answered =>
    obtain ⟨error, refusal⟩ := refused made
    cases refusal.symm.trans answered
    exact ⟨_, rfl⟩
  | conflict made answered after =>
    obtain ⟨error, refusal⟩ := refused made
    cases refusal.symm.trans answered
    cases (refreshed made).symm.trans after
    exact ⟨_, rfl⟩
  | stranded made answered after =>
    obtain ⟨error, refusal⟩ := refused made
    cases refusal.symm.trans answered
    cases (refreshed made).symm.trans after
  | taken _ made answered | lost _ made answered =>
    obtain ⟨error, refusal⟩ := refused made
    cases refusal.symm.trans answered

end Open

end Engine

/-- In every state that an open store can reach, it gives back the snapshots that have been added to a stream, and the
stream can be resumed from those that are not ahead of it: while nobody else writes, the changes of the client become
the next commit at once. From a snapshot that is ahead of its stream, either the stream cannot be resumed at all, or
the client can never commit anything: each attempt fails and leaves everything as it was. -/
theorem snapshots_resumed {engine : Engine} {history : History} (reached : engine.Reached history)
    (isOpen : CommitStore.isDisposed engine = false) (room : history.accepted.length < 2 ^ 63 - 1) {snapshot : Snapshot}
    (added : snapshot ∈ history.snapshots) (legible : engine.Legible snapshot.key history) :
    let found := engine.givesBack snapshot
    ∃ log, engine.log? snapshot.key = .ok log ∧
      CommitStore.snapshot snapshot.key snapshot.revision engine = (.ok (some found), engine) ∧
      (found.revision.toNat ≤ (Commit.eventsOf log).length →
        ∃ resumed, EventStream.resume found EventStream.endless engine = (.ok resumed, engine) ∧
          ∀ (events : List Event) (headers : Headers) (id : CommitId) (now : UInt64), events ≠ [] →
            (Commit.eventsOf log).length + events.length ≤ maxRevision.toNat →
            (∀ commit ∈ history.accepted, commit.key = snapshot.key → commit.id ≠ id) →
              let client := { resumed with uncommitted := events, uncommittedHeaders := headers }
              client.Appends log (client.commitChanges id now engine)) ∧
      ((Commit.eventsOf log).length < found.revision.toNat →
        (found.revision = EventStream.endless ∧
            EventStream.resume found EventStream.endless engine = (.error (.overflow .add), engine)) ∨
          ∃ resumed, EventStream.resume found EventStream.endless engine = (.ok resumed, engine) ∧
            ∀ (events : List Event) (headers : Headers) (id : CommitId) (now : UInt64), events ≠ [] →
              (∀ commit ∈ history.accepted, commit.key = snapshot.key → commit.id ≠ id) →
                let client := { resumed with uncommitted := events, uncommittedHeaders := headers }
                ∃ error, client.commitChanges id now engine = (.error error, client, engine)) := by
  intro found
  obtain ⟨journal, reflects⟩ := reached.reflects
  have sound := reflects.sound
  have orderly := sound.orderly snapshot.key
  have known := reflects.known legible
  have same : found.key = snapshot.key := engine.key_givesBack snapshot
  refine ⟨_, reflects.logs.log_eq sound known, reflects.givenBack isOpen added, ?_⟩
  rw [engine.eventsOf_shows]
  refine ⟨fun covered => ?_, fun ahead => ?_⟩
  · rw [← same] at covered known
    have few := @Orderly.few (journal.stream found.key) [] (by rwa [List.append_nil, same])
    have whole : (Commit.eventsOf (journal.stream found.key)).length ≤ EventStream.endless.toNat :=
      Nat.le_trans few (by decide)
    obtain ⟨resumed, answered, stands⟩ := reflects.resume isOpen known covered whole
    refine ⟨resumed, answered, fun events headers id now dirty small fresh => ?_⟩
    rw [← same] at small fresh ⊢
    exact (stands.change events headers).appends reflects isOpen room fresh now known dirty small
  · by_cases last : found.revision.toNat + 1 < UInt64.size
    · refine .inr ⟨_, reflects.resume_ahead isOpen known ahead (if_pos last) _, ?_⟩
      intro events headers id now dirty fresh
      have stands : (EventStream.ofSnapshot found).Stands snapshot.key [] found.revision.toNat :=
        ⟨same, rfl, rfl, fun id member => absurd member List.not_mem_nil⟩
      exact reflects.stuck isOpen room added known ahead (stands.change events headers) dirty fresh now
    · have overflows : Overflow.sum found.revision 1 = .error .add := if_neg last
      have size : UInt64.size = 18446744073709551616 := rfl
      have largest : EventStream.endless.toNat = 18446744073709551615 := rfl
      have small := found.revision.toNat_lt
      refine .inl ⟨UInt64.toNat_inj.1 (by omega), ?_⟩
      rw [EventStream.resume, overflows]

/-- A snapshot in the midst of a commit, after which there is another. -/
theorem snapshots_resumed_inside_commit :
    let key : StreamKey := ⟨⟨"orders"⟩, ⟨"7"⟩⟩
    let attempt (name : String) (revision sequence : UInt64) (bodies : List Bytes) : Attempt :=
      ⟨key.bucket, key.stream, revision, ⟨name⟩, sequence, 0, [], bodies.map fun body => { body }⟩
    let snapshot : Snapshot := ⟨key, 1, [0]⟩
    let calls : List Call := [.commit (attempt "placed" 2 1 [[1], [2]]), .addSnapshot snapshot,
      .commit (attempt "paid" 3 2 [[3]])]
    let run := Call.serveAll calls (MemoryStore.create {})
    let history : History := calls.zip run.1
    let engine : Engine := .memory run.2
    engine.Reached history ∧ CommitStore.isDisposed engine = false ∧ history.accepted.length < 2 ^ 63 - 1 ∧
      snapshot ∈ history.snapshots ∧ engine.Legible key history ∧
      ∃ resumed log, EventStream.resume snapshot EventStream.endless engine = (.ok resumed, engine) ∧
        engine.log? key = .ok log ∧
        let client := { resumed with uncommitted := [{ body := [4] }], uncommittedHeaders := [] }
        client.Appends log (client.commitChanges ⟨"sent"⟩ 0 engine) := by
  intro key attempt snapshot calls run history engine
  have reached : engine.Reached history := .inMemory {} calls
  have isOpen : CommitStore.isDisposed engine = false := by decide +kernel
  have room : history.accepted.length < 2 ^ 63 - 1 := by decide +kernel
  have added : snapshot ∈ history.snapshots := by decide +kernel
  have legible : engine.Legible key history := fun _ _ _ => trivial
  have fresh : ∀ commit ∈ history.accepted, commit.key = key → commit.id ≠ ⟨"sent"⟩ := by decide +kernel
  obtain ⟨log, stored, -, covered, -⟩ := snapshots_resumed reached isOpen room added legible
  have same : run.2.log key = log := Except.ok.inj stored
  have length : (Commit.eventsOf log).length = 3 := by
    rw [← same]
    decide +kernel
  obtain ⟨resumed, answered, commits⟩ := covered (by rw [length]; decide)
  exact ⟨reached, isOpen, room, added, legible, resumed, log, answered, stored,
    commits [{ body := [4] }] [] ⟨"sent"⟩ 0 (by simp) (by rw [length]; decide) fresh⟩

/-- A snapshot of revision 5 of a stream with one event is accepted. The client that is resumed from it has counted
no commit, so that its first attempt conflicts with the one there is; it is not refreshed, and so on for ever. -/
theorem snapshot_ahead_not_resumed :
    let key : StreamKey := ⟨⟨"orders"⟩, ⟨"7"⟩⟩
    let placed : Attempt := ⟨key.bucket, key.stream, 1, ⟨"placed"⟩, 1, 0, [], [{ body := [1] }]⟩
    let snapshot : Snapshot := ⟨key, 5, [0]⟩
    let calls : List Call := [.commit placed, .addSnapshot snapshot]
    let run := Call.serveAll calls (MemoryStore.create {})
    let engine : Engine := .memory run.2
    snapshot ∈ History.snapshots (calls.zip run.1) ∧
      CommitStore.snapshot key 5 engine = (.ok (some snapshot), engine) ∧
      ∃ resumed, EventStream.resume snapshot EventStream.endless engine = (.ok resumed, engine) ∧
        let client := resumed.add { body := [2] }
        client.commitChanges ⟨"paid"⟩ 0 engine = (.error (.concurrency key 1), client, engine) ∧
          client.commitChanges ⟨"sent"⟩ 0 engine = (.error (.concurrency key 1), client, engine) :=
  ⟨by decide +kernel, rfl, _, rfl, rfl, rfl⟩

end CommitLog
