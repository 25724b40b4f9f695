import CommitLog.Proofs.Database.Heads
import CommitLog.Proofs.Database.Streams
import CommitLog.Proofs.FeedProgress
import Mathlib.Data.List.Induction

/-!
The heads of streams are kept beside the log, and are in step with it (`InStep`): a stream with commits has
one head, which says where its commits and its snapshots end, and a stream without has none. Each call keeps
the heads in step, in a ledger and in a database, so that a head that an engine answers says what its log says
(`Engine.Headed.head`).
-/

namespace CommitLog

namespace Journal

/-- The revision of a stream that has commits. -/
def reached (journal : Journal) (key : StreamKey) : Option UInt64 :=
  (journal.stream key).getLast?.map fun commit => commit.revision

/-- The revision of a stream is the number of its events. -/
theorem Sound.reached_eq {journal : Journal} {accepted : List Commit} (sound : journal.Sound accepted)
    (key : StreamKey) : ((journal.reached key).getD 0).toNat = (Commit.eventsOf (journal.stream key)).length := by
  rcases List.eq_nil_or_concat (journal.stream key) with none | ⟨before, last, split⟩
  · rw [reached, none]
    rfl
  · rw [List.concat_eq_append] at split
    have revision := (sound.orderly key).revision before last [] split
    have one : Commit.eventsOf [last] = last.events := by simp [Commit.eventsOf]
    rw [reached, split, List.getLast?_concat, Commit.eventsOf_append, List.length_append, one]
    exact revision

theorem Sound.reached_fits {journal : Journal} {accepted : List Commit} (sound : journal.Sound accepted)
    {key : StreamKey} {revision : UInt64} (last : journal.reached key = some revision) :
    revision.toNat ≤ maxRevision.toNat := by
  obtain ⟨commit, found, rfl⟩ := Option.map_eq_some_iff.1 last
  exact (sound.fits (List.mem_filter.1 (List.mem_of_getLast? found)).1).revision

end Journal

/-- The greatest revision of some snapshots, 0 if there are none. -/
def Snapshot.greatest (snapshots : List Snapshot) : UInt64 :=
  snapshots.foldl (fun most snapshot => max most snapshot.revision) 0

theorem Snapshot.greatest_concat (snapshots : List Snapshot) (snapshot : Snapshot) :
    greatest (snapshots ++ [snapshot]) = max (greatest snapshots) snapshot.revision := by
  rw [greatest, List.foldl_append]
  rfl

/-! ### In a ledger -/

namespace Ledger

/-- The snapshots of a stream. -/
def snapshotsOf (ledger : Ledger) (key : StreamKey) : List Snapshot :=
  ledger.snapshots.filter fun snapshot => snapshot.key = key

/-- The head of a stream is in step with its commits and its snapshots. -/
structure InStep (ledger : Ledger) (key : StreamKey) : Prop where
  heads : (ledger.heads.filter fun head => head.key = key) =
    (ledger.reached key).toList.map fun revision => ⟨key, revision, Snapshot.greatest (ledger.snapshotsOf key)⟩
  snapshots : ledger.stream key = [] → ledger.snapshotsOf key = []

variable {key : StreamKey} {ledger other : Ledger} {accepted : List Commit}

theorem InStep.head?_eq (inStep : ledger.InStep key) : ledger.head? key =
    (ledger.reached key).map fun revision => ⟨key, revision, Snapshot.greatest (ledger.snapshotsOf key)⟩ := by
  rw [Ledger.head?, ← List.head?_filter, inStep.heads]
  cases ledger.reached key <;> rfl

theorem Alike.reached (alike : Alike key ledger other) : ledger.reached key = other.reached key := by
  have unnumbered : ∀ ledger : Ledger, ledger.reached key =
      ((ledger.stream key).map Commit.unnumbered).getLast?.map fun commit => commit.revision := by
    intro ledger
    rw [List.getLast?_map, Option.map_map]
    rfl
  rw [unnumbered, unnumbered, alike.stream]

/-- A stream is in step in a ledger that holds the same of it. -/
theorem InStep.of_alike (alike : Alike key ledger other) (inStep : other.InStep key) : ledger.InStep key := by
  constructor
  · rw [alike.heads, alike.reached, snapshotsOf, alike.snapshots]
    exact inStep.heads
  · intro none
    have stream := alike.stream
    rw [none, List.map_nil, eq_comm, List.map_eq_nil_iff] at stream
    rw [snapshotsOf, alike.snapshots]
    exact inStep.snapshots stream

theorem InStep.empty (key : StreamKey) : InStep {} key := ⟨rfl, fun _ => rfl⟩

/-- A commit takes the head of its stream along. -/
theorem InStep.accept {attempt : Attempt} (inStep : ledger.InStep attempt.key)
    (taken : attempt.refusal (ledger.postings attempt.key) = none) (checkpoint : Checkpoint) :
    (ledger.accept attempt checkpoint).InStep attempt.key := by
  have stream : (ledger.accept attempt checkpoint).stream attempt.key =
      ledger.stream attempt.key ++ [attempt.toCommit checkpoint] := by
    show (ledger.toJournal.accept attempt checkpoint).stream attempt.key = _
    rw [Journal.stream_accept, if_pos rfl]
  have now : (ledger.accept attempt checkpoint).reached attempt.key = some attempt.revision := by
    rw [Journal.reached, stream, List.getLast?_concat]
    rfl
  have snapshots : (ledger.accept attempt checkpoint).snapshotsOf attempt.key = ledger.snapshotsOf attempt.key := rfl
  constructor
  · have raised := @apply_of_same ⟨attempt.key, attempt.revision⟩ ledger.heads
    refine raised.trans ?_
    dsimp only at raised ⊢
    rw [inStep.heads, now, snapshots]
    cases last : ledger.reached attempt.key with
    | none =>
      rw [Journal.reached, Option.map_eq_none_iff, List.getLast?_eq_none_iff] at last
      rw [inStep.snapshots last]
      rfl
    | some revision =>
      have grows : max revision attempt.revision = attempt.revision := by
        obtain ⟨-, -, -, -, further⟩ := Attempt.refusal_eq_none.1 taken
        have known : Posting.lastRevision (ledger.postings attempt.key) = revision.toNat := by
          obtain ⟨commit, found, rfl⟩ := Option.map_eq_some_iff.1 last
          rw [Posting.lastRevision, Journal.postings, List.getLast?_map, found]
          rfl
        rw [← UInt64.toNat_inj, toNat_max]
        omega
      simp [Memory.HeadUpdate.apply, grows]
  · intro none
    rw [stream] at none
    simp at none

/-- A snapshot takes the head of its stream along. -/
theorem InStep.addSnapshot {snapshot : Snapshot} (inStep : ledger.InStep snapshot.key) :
    (ledger.addSnapshot snapshot).2.InStep snapshot.key := by
  unfold Ledger.addSnapshot
  split
  · exact inStep
  next present =>
  split
  · exact inStep
  next new =>
  dsimp only
  have added : snapshotsOf { ledger with
      snapshots := ledger.snapshots ++ [snapshot]
      heads := ledger.heads.map (MemoryStore.raiseSnapshot snapshot) } snapshot.key =
        ledger.snapshotsOf snapshot.key ++ [snapshot] := by
    simp [snapshotsOf, List.filter_append]
  constructor
  · have raised := filter_edited (key_raiseSnapshot snapshot) snapshot.key ledger.heads
    refine raised.trans ?_
    rw [inStep.heads, List.map_map, added, Snapshot.greatest_concat]
    refine List.map_congr_left fun revision _ => ?_
    simp [MemoryStore.raiseSnapshot]
  · intro bare
    have unreached : ledger.reached snapshot.key = none := by
      rw [Journal.reached, show ledger.stream snapshot.key = [] from bare]
      rfl
    have headless : ledger.head? snapshot.key = none := by
      rw [inStep.head?_eq, unreached]
      rfl
    simp [headless] at present

/-- A removal leaves no head of what it covers, and the others as they are. -/
theorem InStep.remove (inStep : ledger.InStep key) (isOpen : ledger.disposed = false) (gone : StreamKey → Bool) :
    (ledger.remove gone).InStep key := by
  cases removed : gone key with
  | true => exact .of_alike (alike_remove_gone removed isOpen) (.empty key)
  | false => exact .of_alike (alike_remove_kept removed ledger) inStep

theorem InStep.commit (inStep : ledger.InStep key) (attempt : Attempt) : (ledger.commit attempt).2.InStep key := by
  by_cases same : attempt.key = key
  · subst same
    unfold Ledger.commit
    cases taken : attempt.refusal (ledger.postings attempt.key) with
    | some error => exact inStep
    | none =>
      cases ledger.last.next with
      | error overflow => exact inStep
      | ok checkpoint => exact inStep.accept taken checkpoint
  · exact .of_alike (alike_commit_other same ledger) inStep

/-- Every call keeps the heads in step. -/
theorem InStep.answer (inStep : ledger.InStep key) (call : Call) : (ledger.answer call).2.InStep key := by
  cases isOpen : ledger.disposed with
  | true =>
    rw [answer_of_disposed isOpen]
    cases call <;> exact inStep
  | false =>
    rw [answer_of_open isOpen]
    cases call with
    | commit attempt => exact inStep.commit attempt
    | markDispatched checkpoint => exact .of_alike (alike_dispatch checkpoint ledger) inStep
    | addSnapshot snapshot =>
      show (ledger.addSnapshot snapshot).2.InStep key
      by_cases same : snapshot.key = key
      · subst same
        exact inStep.addSnapshot
      · exact .of_alike (alike_addSnapshot_other same ledger) inStep
    | deleteStream gone => exact inStep.remove isOpen fun other => other = gone
    | purgeBucket bucket => exact inStep.remove isOpen fun other => other.bucket = bucket
    | purge => exact inStep.remove isOpen fun _ => true
    | dispose => exact ⟨inStep.heads, inStep.snapshots⟩
    | _ => exact inStep

end Ledger

/-! ### In a database -/

namespace Database

/-- The revision of a stream that has rows. -/
def reached (db : Database) (key : StreamKey) : Option Int64 := (db.stream key).getLast?.map Row.revision

/-- The snapshots of a stream. -/
def snapshotsOf (db : Database) (key : StreamKey) : List SnapshotRow := db.snapshots.filter fun row => row.key = key

/-- The greatest revision of some snapshots, 0 if there are none. -/
def greatest (rows : List SnapshotRow) : Int64 :=
  rows.foldl (fun most row => if most < row.revision then row.revision else most) 0

theorem greatest_concat (rows : List SnapshotRow) (row : SnapshotRow) :
    greatest (rows ++ [row]) = if greatest rows < row.revision then row.revision else greatest rows := by
  rw [greatest, List.foldl_append]
  rfl

/-- The columns of snapshots have the greatest revision that the snapshots have. -/
theorem greatest_rows {snapshots : List Snapshot}
    (fits : ∀ snapshot ∈ snapshots, snapshot.revision.toNat ≤ maxRevision.toNat) :
    (Snapshot.greatest snapshots).toNat ≤ maxRevision.toNat ∧
      greatest (snapshots.map Snapshot.row) = Column.ofWord (Snapshot.greatest snapshots) := by
  induction snapshots using List.reverseRecOn with
  | nil => exact ⟨Nat.zero_le _, rfl⟩
  | append_singleton before last ih =>
    obtain ⟨small, same⟩ := ih fun snapshot member => fits snapshot (List.mem_append_left _ member)
    have fit := fits last (by simp)
    rw [List.map_append, List.map_singleton, greatest_concat, same, Snapshot.greatest_concat, toNat_max]
    exact ⟨Nat.max_le.2 ⟨small, fit⟩, Column.ofWord_max small fit⟩

/-- The head of a stream is in step with its rows and its snapshots. -/
structure InStep (db : Database) (key : StreamKey) : Prop where
  heads : (db.heads.filter fun head => head.key = key) =
    (db.reached key).toList.map fun revision => ⟨key, revision, greatest (db.snapshotsOf key)⟩
  snapshots : db.stream key = [] → db.snapshotsOf key = []

variable {key : StreamKey} {db other : Database} {journal : Journal} {accepted : List Commit}

theorem InStep.head?_eq (inStep : db.InStep key) :
    db.head? key = (db.reached key).map fun revision => ⟨key, revision, greatest (db.snapshotsOf key)⟩ := by
  rw [Database.head?, ← List.head?_filter, inStep.heads]
  cases db.reached key <;> rfl

theorem Alike.reached (alike : Alike key db other) : db.reached key = other.reached key := by
  have unnumbered : ∀ db : Database, db.reached key = ((db.stream key).map Row.unnumbered).getLast?.map Row.revision := by
    intro db
    rw [List.getLast?_map, Option.map_map]
    rfl
  rw [unnumbered, unnumbered, alike.stream]

/-- A stream is in step in a database that holds the same of it. -/
theorem InStep.of_alike (alike : Alike key db other) (inStep : other.InStep key) : db.InStep key := by
  constructor
  · rw [alike.heads, alike.reached, snapshotsOf, alike.snapshots]
    exact inStep.heads
  · intro bare
    have stream := alike.stream
    rw [bare, List.map_nil, eq_comm, List.map_eq_nil_iff] at stream
    rw [snapshotsOf, alike.snapshots]
    exact inStep.snapshots stream

theorem InStep.empty (key : StreamKey) : InStep {} key := ⟨rfl, fun _ => rfl⟩

theorem Holds.reached_eq (holds : db.Holds journal) (key : StreamKey) :
    db.reached key = (journal.reached key).map Column.ofWord := by
  rw [reached, Journal.reached, holds.stream_eq, Journal.stream_eq_map, List.getLast?_map, List.getLast?_map,
    Option.map_map, Option.map_map, Option.map_map]
  rfl

/-- A commit takes the head of its stream along. -/
theorem InStep.appended {attempt : Attempt} (inStep : db.InStep attempt.key) (holds : db.Holds journal)
    (sound : journal.Sound accepted) (taken : attempt.refusal (journal.postings attempt.key) = none)
    (checkpoint : Checkpoint) : (db.appended attempt checkpoint).InStep attempt.key := by
  have stream := @stream_appended attempt.key attempt checkpoint db
  rw [if_pos rfl] at stream
  have now : (db.appended attempt checkpoint).reached attempt.key = some (Column.ofWord attempt.revision) := by
    rw [reached, stream, List.getLast?_concat]
    rfl
  have snapshots : (db.appended attempt checkpoint).snapshotsOf attempt.key = db.snapshotsOf attempt.key := rfl
  constructor
  · have raised := @raiseHead_of_same attempt.key (Column.ofWord attempt.revision) db.heads
    refine raised.trans ?_
    rw [inStep.heads, now, snapshots]
    cases last : db.reached attempt.key with
    | none =>
      rw [reached, Option.map_eq_none_iff, List.getLast?_eq_none_iff] at last
      rw [inStep.snapshots last]
      rfl
    | some column =>
      have grows : column < Column.ofWord attempt.revision := by
        rw [holds.reached_eq] at last
        obtain ⟨revision, known, rfl⟩ := Option.map_eq_some_iff.1 last
        obtain ⟨commit, found, rfl⟩ := Option.map_eq_some_iff.1 known
        obtain ⟨events, small, -, -, further⟩ := Attempt.refusal_eq_none.1 taken
        have ends : Posting.lastRevision (journal.postings attempt.key) = commit.revision.toNat := by
          rw [Posting.lastRevision, Journal.postings, List.getLast?_map, found]
          rfl
        have inStream := List.mem_of_getLast? found
        have fits := sound.fits (List.mem_filter.1 inStream).1
        have some := List.length_pos_iff.2 events
        rw [Column.ofWord_lt_iff fits.revision small]
        omega
      simp [raiseHead, grows]
  · intro bare
    rw [stream] at bare
    simp at bare

/-- A snapshot takes the head of its stream along. -/
theorem InStep.addSnapshot {snapshot : Snapshot} (inStep : db.InStep snapshot.key) :
    (db.addSnapshot snapshot).2.InStep snapshot.key := by
  unfold Database.addSnapshot
  dsimp only
  split
  · exact inStep
  next present =>
  split
  · exact inStep
  next new =>
  have top : greatest (List.filter (fun row => decide (row.key = snapshot.key))
      (db.snapshots ++ [⟨snapshot.key, Column.ofWord snapshot.revision, snapshot.payload⟩])) =
        if greatest (db.snapshotsOf snapshot.key) < Column.ofWord snapshot.revision
          then Column.ofWord snapshot.revision else greatest (db.snapshotsOf snapshot.key) := by
    rw [List.filter_append, List.filter_singleton, decide_eq_true rfl]
    exact greatest_concat (db.snapshotsOf snapshot.key) _
  constructor
  · have raised := filter_edited (key_raised snapshot.key (Column.ofWord snapshot.revision)) snapshot.key db.heads
    refine raised.trans ?_
    rw [inStep.heads, List.map_map]
    refine List.map_congr_left fun revision _ => ?_
    exact (if_pos rfl).trans (congrArg (HeadRow.mk snapshot.key revision) top.symm)
  · intro bare
    have unreached : db.reached snapshot.key = none := by
      rw [reached, show db.stream snapshot.key = [] from bare]
      rfl
    have headless : db.head? snapshot.key = none := by
      rw [inStep.head?_eq, unreached]
      rfl
    simp [headless] at present

/-- A removal leaves no head of what it covers, and the others as they are. -/
theorem InStep.removeWhere (inStep : db.InStep key) (gone : StreamKey → Bool) : (db.removeWhere gone).InStep key := by
  cases removed : gone key with
  | true => exact .of_alike (alike_removeWhere_gone removed db) (.empty key)
  | false => exact .of_alike (alike_removeWhere_kept removed db) inStep

end Database

namespace DatabaseStore

variable {key : StreamKey} {store : DatabaseStore} {journal : Journal} {accepted : List Commit}

/-- Every call keeps the heads in step. -/
theorem inStep_serve (holds : store.db.Holds journal) (sound : journal.Sound accepted)
    (inStep : store.db.InStep key) (call : Call) : (call.serve store).2.db.InStep key := by
  cases disposed : store.handle.disposed with
  | true =>
    have refused := @Call.Closed.serve _ _ store (closed disposed) call
    cases call with
    | dispose => exact inStep
    | isDisposed => exact inStep
    | _ =>
      rw [refused (by simp) (by simp)]
      exact inStep
  | false =>
    have removed : ∀ gone, (store.remove gone).2.db.InStep key := by
      intro gone
      rw [remove, update_eq disposed holds.unlocked]
      exact inStep.removeWhere gone
    cases call with
    | commit attempt =>
      show (store.commit attempt).2.db.InStep key
      rcases commit_cases holds sound disposed attempt with ⟨error, refused⟩ | ⟨checkpoint, taken, -, made⟩
      · rw [refused]
        exact inStep
      rw [made]
      by_cases same : attempt.key = key
      · subst same
        exact inStep.appended holds sound taken checkpoint
      · exact .of_alike (Database.alike_appended_other same checkpoint store.db) inStep
    | addSnapshot snapshot =>
      show (store.addSnapshot snapshot).2.db.InStep key
      by_cases same : snapshot.key = key
      · subst same
        rw [addSnapshot, update_eq disposed holds.unlocked]
        exact inStep.addSnapshot
      · exact .of_alike (alike_addSnapshot_other holds disposed same).db inStep
    | markDispatched checkpoint =>
      show (store.markDispatched checkpoint).2.db.InStep key
      rw [markDispatched, update_eq disposed holds.unlocked]
      exact .of_alike (Database.alike_markDispatched checkpoint store.db) inStep
    | readFeed scope after =>
      show (CommitStore.readFeed scope after store).2.db.InStep key
      rw [readFeed_store]
      exact inStep
    | deleteStream gone => exact removed fun other => other = gone
    | purgeBucket bucket => exact removed fun other => other.bucket = bucket
    | purge => exact removed fun _ => true
    | dispose => exact inStep
    | prepare | getFrom | head | snapshot | streamsToSnapshot | isDisposed => exact inStep

end DatabaseStore

/-! ### In both engines -/

namespace Engine

/-- An open engine that holds a journal and keeps the heads of all streams in step with it. -/
inductive Headed (readable : Commit → Prop) : Engine → Journal → Prop where
  | memory {store : MemoryStore} {ledger : Ledger} (keeps : store.Keeps ledger)
    (isOpen : store.disposed = false) (inStep : ∀ key, ledger.InStep key) :
    Headed readable (.memory store) ledger.toJournal
  | database {store : DatabaseStore} {journal : Journal} (logs : store.Logs True journal)
    (isOpen : store.handle.disposed = false) (storable : ∀ commit, readable commit → commit.Storable)
    (inStep : ∀ key, store.db.InStep key) : Headed readable (.database store) journal

variable {readable : Commit → Prop} {engine : Engine} {journal : Journal} {accepted : List Commit}

/-- Whether an engine can read back a commit as it was. -/
def Restores : Engine → Commit → Prop
  | .memory _, _ => True
  | .database _, commit => commit.Storable

theorem Fresh.headed (fresh : engine.Fresh) : engine.Headed engine.Restores {} := by
  cases fresh with
  | memory config =>
    have keeps : (MemoryStore.create config).Keeps {} := .create config
    exact .memory keeps rfl fun key => .empty key
  | database config =>
    exact .database (.fresh config) rfl (fun _ storable => storable) fun key => ⟨rfl, fun _ => rfl⟩

theorem Headed.holds (headed : engine.Headed readable journal) : engine.Holds readable journal := by
  cases headed with
  | memory keeps isOpen inStep => exact .memory keeps isOpen
  | database logs isOpen storable inStep => exact .database logs isOpen storable

/-- Every call but the disposal makes a step of the journal and keeps the heads in step. -/
theorem Headed.serve (headed : engine.Headed readable journal) (sound : journal.Sound accepted) {call : Call}
    (other : call ≠ .dispose) :
    ∃ after, Journal.Step journal (call.serve engine).1.accepted after ∧
      (call.serve engine).2.Headed readable after := by
  cases headed with
  | @memory store ledger keeps isOpen inStep =>
    obtain ⟨same, kept⟩ := MemoryStore.serve_agrees keeps sound call
    have ledgerOpen : ledger.disposed = false := by rw [← keeps.disposed, isOpen]
    rw [serve_memory, same]
    refine ⟨_, ledger.answer_step call, .memory kept ?_ fun key => (inStep key).answer call⟩
    rw [kept.disposed, Ledger.disposed_answer ledgerOpen other]
  | @database store _ logs isOpen storable inStep =>
    obtain ⟨after, step, logged⟩ := DatabaseStore.serve_step logs sound call
    rw [serve_database]
    exact ⟨after, step, .database logged ((store.disposed_serve other).trans isOpen) storable
      fun key => DatabaseStore.inStep_serve logs.holds sound (inStep key) call⟩

/-- After a run the journal has taken in what the run has added. -/
theorem Headed.serveAll (headed : engine.Headed readable journal) (sound : journal.Sound accepted)
    {calls : List Call} (others : .dispose ∉ calls) :
    ∃ after, after.Sound (accepted ++ Call.accepted (Call.serveAll calls engine).1) ∧
      (Call.serveAll calls engine).2.Headed readable after := by
  induction calls generalizing engine journal accepted with
  | nil => exact ⟨journal, by simpa [Call.serveAll, Call.accepted] using sound, headed⟩
  | cons call calls ih =>
    rw [List.mem_cons, not_or] at others
    obtain ⟨middle, step, next⟩ := headed.serve sound (Ne.symm others.1)
    obtain ⟨after, soundAfter, last⟩ := ih next (sound.step step) others.2
    rw [List.append_assoc, ← Call.accepted_cons] at soundAfter
    exact ⟨after, soundAfter, last⟩

/-- The head that an engine answers has the revision of its stream. -/
theorem Headed.head (headed : engine.Headed readable journal) (sound : journal.Sound accepted) (key : StreamKey) :
    ∃ head after, CommitStore.head key engine = (.ok head, after) ∧ after.Headed readable journal ∧
      head.map StreamHead.revision = journal.reached key := by
  cases headed with
  | @memory store ledger keeps isOpen inStep =>
    refine ⟨ledger.head? key, .memory store.settled, ?_, .memory keeps.settled isOpen inStep, ?_⟩
    · show ((store.head key).1, Engine.memory (store.head key).2) = _
      rw [MemoryStore.head_eq keeps isOpen]
    · rw [(inStep key).head?_eq]
      cases ledger.reached key <;> rfl
  | @database store _ logs isOpen storable inStep =>
    refine ⟨(store.db.head? key).map HeadRow.toHead, .database store, ?_, .database logs isOpen storable inStep, ?_⟩
    · show (store.head key, Engine.database store) = _
      rw [DatabaseStore.head, DatabaseStore.query_eq isOpen]
    · rw [(inStep key).head?_eq, logs.holds.reached_eq]
      cases last : journal.reached key with
      | none => rfl
      | some revision => exact congrArg some (Column.toWord_ofWord (sound.reached_fits last))

end Engine
end CommitLog
