import CommitLog.Engine
import CommitLog.Proofs.Database.Calls
import CommitLog.Proofs.Database.Reading
import CommitLog.Proofs.EventStream
import CommitLog.Proofs.Memory.Refinement

/-!
Both engines at once, as far as commits to a stream and windows on it go. An engine that is open `Holds` a
journal: it takes an attempt only if it continues its stream (`Holds.commit`), and a window shows the
commits of the journal that it overlaps (`Holds.getFrom`), in a form that a stream takes in as the commits
themselves (`populate_shows`).
-/

namespace CommitLog

namespace Engine

/-- An engine that is open holds a journal. If it is a database, it can read back the commits that are
`readable`. -/
inductive Holds (readable : Commit → Prop) : Engine → Journal → Prop where
  | memory {store : MemoryStore} {ledger : Ledger} (keeps : store.Keeps ledger)
    (isOpen : store.disposed = false) : Holds readable (.memory store) ledger.toJournal
  | database {store : DatabaseStore} {journal : Journal} (logs : store.Logs True journal)
    (isOpen : store.handle.disposed = false) (storable : ∀ commit, readable commit → commit.Storable) :
    Holds readable (.database store) journal

/-- A commit as an engine shows it. -/
def shows : Engine → Commit → Commit
  | .memory _, commit => commit
  | .database _, commit => commit.stored

variable {readable : Commit → Prop} {engine : Engine} {journal : Journal} {accepted : List Commit}

/-- An engine refuses an attempt, or the journal takes it as its next commit. -/
theorem Holds.commit (holds : engine.Holds readable journal) (sound : journal.Sound accepted) (attempt : Attempt) :
    (∃ error after, CommitStore.commit attempt engine = (.error error, after) ∧ after.Holds readable journal) ∨
      ∃ checkpoint after, CommitStore.commit attempt engine = (.ok (attempt.toCommit checkpoint), after) ∧
        attempt.refusal (journal.postings attempt.key) = none ∧ journal.last.next = .ok checkpoint ∧
        after.Holds readable (journal.accept attempt checkpoint) := by
  cases holds with
  | @memory store ledger keeps isOpen =>
    have served : CommitStore.commit attempt (Engine.memory store) =
        ((store.commit attempt).1, .memory (store.commit attempt).2) := rfl
    rw [served, MemoryStore.commit, MemoryStore.check_eq keeps sound isOpen, keeps.last]
    cases taken : attempt.refusal (ledger.postings attempt.key) with
    | some error => exact .inl ⟨error, _, rfl, .memory keeps isOpen⟩
    | none =>
      cases next : ledger.last.next with
      | error overflow => exact .inl ⟨.overflow overflow, _, rfl, .memory keeps isOpen⟩
      | ok checkpoint => exact .inr ⟨checkpoint, _, rfl, rfl, rfl, .memory (keeps.publish attempt next) isOpen⟩
  | @database store journal logs isOpen storable =>
    have served : CommitStore.commit attempt (Engine.database store) =
        ((store.commit attempt).1, .database (store.commit attempt).2) := rfl
    rw [served, DatabaseStore.commit_eq logs.holds sound isOpen attempt (logs.cached trivial)]
    cases taken : attempt.refusal (journal.postings attempt.key) with
    | some error => exact .inl ⟨error, _, rfl, .database logs isOpen storable⟩
    | none =>
      cases next : journal.last.next with
      | error overflow => exact .inl ⟨.sql "database or disk is full", _, rfl, .database logs isOpen storable⟩
      | ok checkpoint =>
        exact .inr ⟨checkpoint, _, rfl, rfl, rfl, .database (logs.committed attempt checkpoint) isOpen storable⟩

/-- A window up to the largest revision shows the commits that it overlaps. A database may start it
earlier. -/
theorem Holds.getFrom (holds : engine.Holds readable journal) (sound : journal.Sound accepted) {key : StreamKey}
    (known : ∀ commit ∈ journal.stream key, readable commit) (least : UInt64) :
    ∃ start : UInt64, start.toNat ≤ least.toNat ∧
      CommitStore.getFrom key least maxRevision engine =
        (.ok (((journal.stream key).filter (Commit.overlaps start maxRevision)).map engine.shows), engine) := by
  cases holds with
  | @memory store ledger keeps isOpen =>
    have read := MemoryStore.getFrom_eq keeps sound isOpen key least maxRevision
    refine ⟨least, Nat.le_refl _, ?_⟩
    show (store.getFrom key least maxRevision, Engine.memory store) = _
    rw [read]
    exact congrArg (fun commits => (Except.ok commits, Engine.memory store)) (List.map_id _).symm
  | @database store journal logs isOpen storable =>
    have read := DatabaseStore.getFrom_eq logs.holds sound (fun commit member => storable _ (known commit member))
      isOpen least maxRevision
    refine ⟨min least maxRevision, ?_, ?_⟩
    · rw [toNat_min]
      omega
    · show (store.getFrom key least maxRevision, Engine.database store) = _
      rw [read]
      rfl

theorem events_shows (engine : Engine) (commit : Commit) : (engine.shows commit).events = commit.events := by
  cases engine <;> rfl

theorem checkpoint_shows (engine : Engine) (commit : Commit) :
    (engine.shows commit).checkpoint = commit.checkpoint := by
  cases engine <;> rfl

theorem eventsOf_shows (engine : Engine) (log : List Commit) :
    Commit.eventsOf (log.map engine.shows) = Commit.eventsOf log := by
  simp only [Commit.eventsOf, List.flatMap_map, events_shows]

/-- A stream takes in the commits that an engine shows as the commits themselves. -/
theorem populate_shows (engine : Engine) (least most : UInt64) (commits : List Commit) (stream : EventStream) :
    EventStream.populate least most (commits.map engine.shows) stream =
      EventStream.populate least most commits stream := by
  induction commits generalizing stream with
  | nil => rfl
  | cons commit commits ih =>
    have id : (engine.shows commit).id = commit.id := by cases engine <;> rfl
    have sequence : (engine.shows commit).sequence = commit.sequence := by cases engine <;> rfl
    have first : (engine.shows commit).firstRevision = commit.firstRevision := by cases engine <;> rfl
    have headers : (engine.shows commit).headers = commit.headers := by cases engine <;> rfl
    simp only [List.map_cons, EventStream.populate, id, sequence, first, headers, events_shows, ih]

end Engine

/-- A window that starts no later than right after some commits shows some of them and all that follow. -/
theorem Orderly.window {seen new : List Commit} (orderly : Orderly (seen ++ new)) {least : UInt64}
    (reached : least.toNat ≤ (Commit.eventsOf seen).length + 1) :
    ∃ again, (∀ commit ∈ again, commit ∈ seen) ∧
      (seen ++ new).filter (Commit.overlaps least maxRevision) = again ++ new := by
  have whole : new.filter (Commit.overlaps least maxRevision) = new := by
    refine List.filter_eq_self.2 fun commit member => ?_
    obtain ⟨before, later, rfl⟩ := List.append_of_mem member
    have fits := orderly.fits commit (by simp)
    have events := List.length_pos_iff.2 fits.events
    have small := fits.revision
    have revision := orderly.revision (seen ++ before) commit later (by simp)
    rw [Commit.eventsOf_append, List.length_append] at revision
    rw [Commit.overlaps, Bool.and_eq_true, decide_eq_true_eq, decide_eq_true_eq]
    omega
  refine ⟨seen.filter (Commit.overlaps least maxRevision), fun commit member => (List.mem_filter.1 member).1, ?_⟩
  rw [List.filter_append, whole]

/-- A window from the beginning shows the whole log. -/
theorem Orderly.window_all {log : List Commit} (orderly : Orderly log) {least : UInt64} (zero : least.toNat ≤ 0) :
    log.filter (Commit.overlaps least maxRevision) = log := by
  obtain ⟨again, seen, window⟩ := @Orderly.window [] log orderly least (by omega)
  rw [List.nil_append] at window
  rw [window, List.eq_nil_iff_forall_not_mem.2 fun commit member => List.not_mem_nil (seen commit member)]
  rfl

end CommitLog
