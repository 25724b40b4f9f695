import CommitLog.Proofs.Reached

/-!
Heads and snapshots are kept beside the log and stay in step with it, whatever has been asked of a store. The head of a
stream says where its log and its snapshots end, a snapshot is taken once for each revision, and the newest one up to
any revision is found (`Engine.Books`). An answer may settle head updates that are still waiting, which nothing shows
(`Engine.Reflects.unseen`).
-/

namespace CommitLog

/-- The snapshots of a stream that a history leaves. -/
def History.snapshotsOf (history : History) (key : StreamKey) : List Snapshot :=
  history.snapshots.filter fun snapshot => snapshot.key = key

/-- Whether a snapshot is the newest of some up to a revision; there is none if they are all newer. -/
def Snapshot.IsNewest (snapshots : List Snapshot) (most : UInt64) : Option Snapshot → Prop
  | none => ∀ other ∈ snapshots, most < other.revision
  | some snapshot => snapshot ∈ snapshots ∧ snapshot.revision ≤ most ∧
      ∀ other ∈ snapshots, other.revision ≤ most → other.revision ≤ snapshot.revision

theorem MemoryStore.isNewest (snapshots : List Snapshot) (key : StreamKey) (most : UInt64) :
    Snapshot.IsNewest (snapshots.filter fun snapshot => snapshot.key = key) most
      (newest (snapshots.filter fun snapshot => snapshot.key = key ∧ snapshot.revision ≤ most)) := by
  have inside : ∀ snapshot, (snapshot ∈ snapshots.filter fun snapshot => snapshot.key = key ∧ snapshot.revision ≤ most) ↔
      (snapshot ∈ snapshots.filter fun snapshot => snapshot.key = key) ∧ snapshot.revision ≤ most := by
    simp [and_assoc]
  cases rows : snapshots.filter fun snapshot => snapshot.key = key ∧ snapshot.revision ≤ most with
  | nil =>
    intro other member
    by_contra reached
    have listed := (inside other).2 ⟨member, UInt64.not_lt.1 reached⟩
    rw [rows] at listed
    contradiction
  | cons first others =>
    obtain ⟨found, member, newest, greatest⟩ := newest_cons first others
    rw [← rows] at member greatest
    rw [newest]
    obtain ⟨ofStream, bound⟩ := (inside found).1 member
    refine ⟨ofStream, bound, ?_⟩
    intro other known least
    rw [UInt64.le_iff_toNat_le]
    exact greatest other ((inside other).2 ⟨known, least⟩)

namespace Engine

/-! ### The books of a stream -/

/-- No later call, and no feed between the calls, tells one engine from another. -/
def Indistinct (engine other : Engine) : Prop :=
  ∀ calls, (Call.serveAll calls engine).1 = (Call.serveAll calls other).1 ∧
    ∀ feed, ((Call.serveAll calls engine).2.next feed).1 = ((Call.serveAll calls other).2.next feed).1 ∧
      ((Call.serveAll calls engine).2.next feed).2.1 = ((Call.serveAll calls other).2.next feed).2.1

/-- An engine in which no head update is waiting. A database has none that wait. -/
def settled : Engine → Engine
  | .memory store => .memory store.settled
  | .database store => .database store

/-- The revisions that the commits of a stream end at, in the order of its log. -/
def revisions (key : StreamKey) : Engine → List UInt64
  | .memory store => (store.log key).map fun commit => commit.revision
  | .database store => (store.db.stream key).map fun row => Column.toWord row.revision

/-- The heads and snapshots of a stream are in step with its log, and with the snapshots that a history leaves. -/
structure Books (history : History) (key : StreamKey) (engine : Engine) : Prop where
  /-- A stream has a head if it has commits, at the end of the last and with the greatest of its snapshots. -/
  head : CommitStore.head key engine =
    (.ok ((engine.revisions key).getLast?.map fun revision =>
      ⟨key, revision, Snapshot.greatest (history.snapshotsOf key)⟩), engine.settled)
  /-- No two snapshots are kept at one revision. -/
  single : ∀ one ∈ history.snapshotsOf key, ∀ other ∈ history.snapshotsOf key, one.revision = other.revision → one = other
  /-- A snapshot is added to a stream that has commits and none at its revision, and else changes nothing. -/
  adds : ∀ snapshot : Snapshot, snapshot.key = key → snapshot.revision ≤ maxRevision →
    ∃ added after, CommitStore.addSnapshot snapshot engine = (.ok added, after) ∧
      (added = true ↔ engine.revisions key ≠ [] ∧
        ∀ other ∈ history.snapshotsOf key, other.revision ≠ snapshot.revision) ∧
      (added = false → after = engine.settled)
  /-- The newest snapshot up to any word is found, or none if there is none. -/
  newest : ∀ most, ∃ found, CommitStore.snapshot key most engine = (.ok found, engine) ∧
    Snapshot.IsNewest (history.snapshotsOf key) most found

variable {engine : Engine} {history : History} {journal : Journal} {key : StreamKey}

/-! ### In every state that is reached -/

theorem Indistinct.refl (engine : Engine) : engine.Indistinct engine :=
  fun _ => ⟨rfl, fun _ => ⟨rfl, rfl⟩⟩

/-- Nothing shows whether head updates are waiting. -/
theorem Reflects.unseen (reflects : engine.Reflects history journal) : engine.settled.Indistinct engine := by
  cases reflects with
  | database => exact .refl _
  | @memory store ledger keeps sound =>
    intro calls
    obtain ⟨answers, kept⟩ := MemoryStore.serveAll_agrees keeps sound calls
    obtain ⟨settledAnswers, settledKept⟩ := MemoryStore.serveAll_agrees keeps.settled sound calls
    rw [settled, serveAll_memory, serveAll_memory]
    refine ⟨settledAnswers.trans answers.symm, fun feed => ?_⟩
    have same := kept.next_eq settledKept feed
    exact ⟨congrArg (fun turn => turn.1) same, congrArg (fun turn => turn.2) same⟩

/-- The log of a stream ends where the journal says. -/
theorem Reflects.reached_eq (reflects : engine.Reflects history journal) (key : StreamKey) :
    (engine.revisions key).getLast? = journal.reached key := by
  cases reflects with
  | @memory store ledger keeps =>
    rw [revisions, keeps.streams, Journal.reached, List.getLast?_map]
  | @database store _ holds sound =>
    have last : ((store.db.stream key).map fun row => Column.toWord row.revision).getLast? =
        (store.db.reached key).map Column.toWord := by
      rw [Database.reached, List.getLast?_map, Option.map_map]
      rfl
    rw [revisions, last, holds.reached_eq, Option.map_map]
    cases reached : journal.reached key with
    | none => rfl
    | some revision => exact congrArg some (Column.toWord_ofWord (sound.reached_fits reached))

/-- No two snapshots are kept at one revision, in either engine. -/
theorem Reflects.single (reflects : engine.Reflects history journal) :
    History.Single Snapshot.revision history.snapshots := by
  cases reflects with
  | memory _ _ _ _ single => exact single
  | database _ _ _ _ single =>
    -- The columns are made from the revisions.
    refine List.Nodup.of_map (fun place => (place.1, Column.ofWord place.2)) ?_
    rw [List.map_map]
    exact single

section Open

variable (reflects : engine.Reflects history journal) (isOpen : CommitStore.isDisposed engine = false)
include reflects isOpen

/-- The head of a stream says where its log and its snapshots end. -/
theorem Reflects.head (bounded : ∀ snapshot ∈ history.snapshots, snapshot.revision ≤ maxRevision) (key : StreamKey) :
    CommitStore.head key engine = (.ok ((engine.revisions key).getLast?.map fun revision =>
      ⟨key, revision, Snapshot.greatest (history.snapshotsOf key)⟩), engine.settled) := by
  rw [reflects.reached_eq]
  cases reflects with
  | @memory store ledger keeps sound inStep snapshots =>
    show ((store.head key).1, Engine.memory (store.head key).2) = _
    rw [MemoryStore.head_eq keeps isOpen, (inStep key).head?_eq, Ledger.snapshotsOf, snapshots]
    rfl
  | @database store _ holds sound inStep snapshots =>
    have rows : store.db.snapshotsOf key = (history.snapshotsOf key).map Snapshot.row := by
      rw [Database.snapshotsOf, snapshots, List.filter_map]
      rfl
    obtain ⟨small, greatest⟩ := @Database.greatest_rows (history.snapshotsOf key) fun snapshot member =>
      UInt64.le_iff_toNat_le.1 (bounded snapshot (List.mem_filter.1 member).1)
    show (store.head key, Engine.database store) = _
    rw [DatabaseStore.head, DatabaseStore.query_eq isOpen, (inStep key).head?_eq, holds.reached_eq, rows, greatest]
    cases last : journal.reached key with
    | none => rfl
    | some revision =>
      simp only [Option.map_some, HeadRow.toHead, Column.toWord_ofWord (sound.reached_fits last),
        Column.toWord_ofWord small]
      rfl

/-- A snapshot is looked up among those that the history leaves. -/
theorem Reflects.snapshot (bounded : ∀ snapshot ∈ history.snapshots, snapshot.revision ≤ maxRevision) (key : StreamKey)
    (most : UInt64) : CommitStore.snapshot key most engine = (.ok (MemoryStore.newest (history.snapshots.filter
      fun snapshot => snapshot.key = key ∧ snapshot.revision ≤ most)), engine) := by
  have single := reflects.single
  cases reflects with
  | @memory store ledger keeps sound inStep snapshots =>
    show (store.snapshot key most, Engine.memory store) = _
    rw [MemoryStore.snapshot, MemoryStore.ensureOpen_of_open isOpen, keeps.snapshots, snapshots]
    rfl
  | @database store _ holds sound inStep snapshots =>
    have apart : history.snapshots.Pairwise fun a b => a.key = b.key → a.revision ≠ b.revision :=
      (List.pairwise_map.1 single).imp fun distinct sameKey sameRevision => distinct (Prod.ext sameKey sameRevision)
    have found := Database.snapshot?_eq snapshots (fun snapshot member => UInt64.le_iff_toNat_le.1 (bounded snapshot member))
      apart key most
    show (store.snapshot key most, Engine.database store) = _
    rw [DatabaseStore.snapshot, DatabaseStore.query_eq isOpen, found]

/-- A snapshot is added where the stream has commits and there is none at its revision. -/
theorem Reflects.adds (bounded : ∀ snapshot ∈ history.snapshots, snapshot.revision ≤ maxRevision) {snapshot : Snapshot}
    (small : snapshot.revision ≤ maxRevision) :
    ∃ added after, CommitStore.addSnapshot snapshot engine = (.ok added, after) ∧
      (added = true ↔ engine.revisions snapshot.key ≠ [] ∧
        ∀ other ∈ history.snapshotsOf snapshot.key, other.revision ≠ snapshot.revision) ∧
      (added = false → after = engine.settled) := by
  -- Both engines make these two tests, one after the other.
  have verdict : (engine.revisions snapshot.key ≠ [] ∧
      ∀ other ∈ history.snapshotsOf snapshot.key, other.revision ≠ snapshot.revision) ↔
        journal.reached snapshot.key ≠ none ∧
          ¬ (history.snapshots.any fun other => other.key = snapshot.key ∧ other.revision = snapshot.revision) = true := by
    rw [← reflects.reached_eq, ne_eq, ne_eq, List.getLast?_eq_none_iff]
    simp [History.snapshotsOf]
  rw [verdict]
  cases reflects with
  | @memory store ledger keeps sound inStep snapshots =>
    have headless : (store.settled.headQueue.find? snapshot.key).isNone = true ↔
        ledger.reached snapshot.key = none := by
      have found : store.settled.headQueue.find? snapshot.key = ledger.head? snapshot.key := by
        rw [Ledger.head?, ← keeps.heads]
        rfl
      rw [found, (inStep snapshot.key).head?_eq, Option.isNone_map, Option.isNone_iff_eq_none]
    have kept : store.settled.snapshots = history.snapshots := keeps.snapshots.trans snapshots
    show ∃ added after, ((store.addSnapshot snapshot).1, Engine.memory (store.addSnapshot snapshot).2) = (.ok added, after) ∧
      _ ∧ (added = false → after = Engine.memory store.settled)
    rw [MemoryStore.addSnapshot, MemoryStore.ensureOpen_of_open isOpen]
    dsimp only
    rw [kept]
    split
    · next none => exact ⟨false, _, rfl, iff_of_false Bool.false_ne_true fun free => free.1 (headless.1 none), fun _ => rfl⟩
    next some =>
    split
    · next known => exact ⟨false, _, rfl, iff_of_false Bool.false_ne_true fun free => free.2 known, fun _ => rfl⟩
    · next new => exact ⟨true, _, rfl, iff_of_true rfl ⟨fun none => some (headless.2 none), new⟩, by simp⟩
  | @database store _ holds sound inStep snapshots =>
    have headless : (store.db.head? snapshot.key).isNone = true ↔ journal.reached snapshot.key = none := by
      rw [(inStep snapshot.key).head?_eq, holds.reached_eq, Option.isNone_map, Option.isNone_map,
        Option.isNone_iff_eq_none]
    have kept := Database.any_row snapshots (fun other member => UInt64.le_iff_toNat_le.1 (bounded other member))
      (UInt64.le_iff_toNat_le.1 small) snapshot.key
    show ∃ added after, ((store.addSnapshot snapshot).1, Engine.database (store.addSnapshot snapshot).2) =
      (.ok added, after) ∧ _ ∧ (added = false → after = Engine.database store)
    rw [DatabaseStore.addSnapshot, DatabaseStore.update_eq isOpen holds.unlocked, Database.addSnapshot]
    dsimp only
    rw [kept]
    split
    · next none => exact ⟨false, _, rfl, iff_of_false Bool.false_ne_true fun free => free.1 (headless.1 none), fun _ => rfl⟩
    next some =>
    split
    · next known => exact ⟨false, _, rfl, iff_of_false Bool.false_ne_true fun free => free.2 known, fun _ => rfl⟩
    · next new => exact ⟨true, _, rfl, iff_of_true rfl ⟨fun none => some (headless.2 none), new⟩, by simp⟩

end Open

end Engine

/-- Whatever has been asked of an open store, the heads and snapshots of every stream are in step with its log, and
whether head updates are waiting shows in nothing that is asked of it later. -/
theorem books_in_step {engine : Engine} {history : History} (reached : engine.Reached history)
    (isOpen : CommitStore.isDisposed engine = false)
    (bounded : ∀ snapshot ∈ history.snapshots, snapshot.revision ≤ maxRevision) :
    engine.settled.Indistinct engine ∧ ∀ key, engine.Books history key := by
  obtain ⟨journal, reflects⟩ := reached.reflects
  refine ⟨reflects.unseen, fun key => ?_⟩
  constructor
  · exact reflects.head isOpen bounded key
  · intro one first other second same
    obtain ⟨inside, sameKey⟩ := List.mem_filter.1 first
    obtain ⟨known, otherKey⟩ := List.mem_filter.1 second
    exact List.inj_on_of_nodup_map reflects.single inside known
      (Prod.ext ((of_decide_eq_true sameKey).trans (of_decide_eq_true otherKey).symm) same)
  · rintro snapshot rfl small
    exact reflects.adds isOpen bounded small
  · exact fun most => ⟨_, reflects.snapshot isOpen bounded key most, MemoryStore.isNewest history.snapshots key most⟩

/-- Snapshots ahead of their stream, out of order and twice at one revision, beside a stream that is deleted and begun
again, in both engines. -/
theorem books_in_step_around_deletion :
    let key : StreamKey := ⟨⟨"orders"⟩, ⟨"7"⟩⟩
    let other : StreamKey := ⟨⟨"orders"⟩, ⟨"8"⟩⟩
    let attempt (key : StreamKey) (name : String) (revision sequence : UInt64) (bodies : List Bytes) : Attempt :=
      ⟨key.bucket, key.stream, revision, ⟨name⟩, sequence, 0, [], bodies.map fun body => { body }⟩
    let calls : List Call := [.commit (attempt key "placed" 1 1 [[1]]), .addSnapshot ⟨key, 5, [5]⟩,
      .addSnapshot ⟨key, 2, [2]⟩, .addSnapshot ⟨key, 5, [6]⟩, .commit (attempt other "placed" 2 1 [[1], [2]]),
      .addSnapshot ⟨other, 1, [1]⟩, .deleteStream other, .addSnapshot ⟨other, 2, [2]⟩,
      .commit (attempt other "begun" 1 1 [[1]]), .commit (attempt key "paid" 3 2 [[2], [3]])]
    let inMemory := Call.serveAll calls (MemoryStore.create {})
    let inDatabase := Call.serveAll calls (DatabaseStore.fresh {})
    ∀ engine history, (engine, history) ∈ [(Engine.memory inMemory.2, calls.zip inMemory.1),
        (Engine.database inDatabase.2, calls.zip inDatabase.1)] →
      engine.Reached history ∧ CommitStore.isDisposed engine = false ∧
        (∀ snapshot ∈ History.snapshots history, snapshot.revision ≤ maxRevision) ∧
        (engine.settled.Indistinct engine ∧ ∀ key, engine.Books history key) ∧
        (CommitStore.head key engine).1 = .ok (some ⟨key, 3, 5⟩) ∧
        (CommitStore.head other engine).1 = .ok (some ⟨other, 1, 0⟩) ∧
        (CommitStore.snapshot key 4 engine).1 = .ok (some ⟨key, 2, [2]⟩) ∧
        (CommitStore.snapshot key 1 engine).1 = .ok none := by
  intro key other attempt calls inMemory inDatabase engine history listed
  have cases : engine = .memory inMemory.2 ∧ history = calls.zip inMemory.1 ∨
      engine = .database inDatabase.2 ∧ history = calls.zip inDatabase.1 := by simpa using listed
  rcases cases with ⟨rfl, rfl⟩ | ⟨rfl, rfl⟩
  · have reached : Engine.Reached (.memory inMemory.2) (calls.zip inMemory.1) := .inMemory {} calls
    have isOpen : CommitStore.isDisposed (Engine.memory inMemory.2) = false := by decide +kernel
    have bounded : ∀ snapshot ∈ History.snapshots (calls.zip inMemory.1), snapshot.revision ≤ maxRevision := by
      decide +kernel
    exact ⟨reached, isOpen, bounded, books_in_step reached isOpen bounded, by decide +kernel⟩
  · have reached : Engine.Reached (.database inDatabase.2) (calls.zip inDatabase.1) := .inDatabase {} calls
    have isOpen : CommitStore.isDisposed (Engine.database inDatabase.2) = false := by decide +kernel
    have bounded : ∀ snapshot ∈ History.snapshots (calls.zip inDatabase.1), snapshot.revision ≤ maxRevision := by
      decide +kernel
    exact ⟨reached, isOpen, bounded, books_in_step reached isOpen bounded, by decide +kernel⟩

end CommitLog
