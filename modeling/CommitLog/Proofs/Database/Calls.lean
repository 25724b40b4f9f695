import CommitLog.Proofs.Call
import CommitLog.Proofs.Database.Log
import CommitLog.Proofs.Feed

/-!
The calls of a store in a database, as far as the log is concerned (`DatabaseStore.Logs`). An attempt is
decided as `Attempt.refusal` says, unless the store remembers a commit that is no longer there
(`commit_eq`), and every call does to the log what a step of a journal may do (`serve_step`).
-/

namespace CommitLog.DatabaseStore

/-- A store on a new database. -/
def fresh (config : DatabaseConfig) : DatabaseStore where
  db := ({} : Database).verifyVersion.2
  handle := Handle.create config

/-- The database of a store holds a journal. A store that is alone on its database remembers only commits
that are still there; one that is not may remember what others have removed. -/
structure Logs (alone : Prop) (store : DatabaseStore) (journal : Journal) : Prop where
  holds : store.db.Holds journal
  remembered : alone → ∀ key ∈ store.handle.recent.keys,
    ∃ commit ∈ journal.commits, commit.key = key.stream ∧ commit.id = key.id

theorem Logs.fresh (config : DatabaseConfig) : Logs True (fresh config) {} where
  holds := Database.Holds.empty.verifyVersion
  remembered _ key member := by simp [DatabaseStore.fresh, Handle.create] at member

variable {alone : Prop} {store : DatabaseStore} {journal : Journal} {accepted : List Commit}

theorem ensureOpen_of_open (isOpen : store.handle.disposed = false) : store.ensureOpen = .ok () := by
  simp [ensureOpen, isOpen]

theorem query_eq {α : Type} (isOpen : store.handle.disposed = false) (ask : Database → Except Error α) :
    store.query ask = ask store.db := by
  rw [query, ensureOpen_of_open isOpen]
  rfl

theorem ensureOpen_of_disposed (disposed : store.handle.disposed = true) : store.ensureOpen = .error .disposed := by
  simp [ensureOpen, disposed]

/-- A transaction of a store that is open, on a database that nobody else has locked. -/
theorem update_eq {α : Type} {change : Database → Except Error (α × Database)} {done : Handle → Handle}
    (isOpen : store.handle.disposed = false) (unlocked : store.db.writeLocked = false) :
    store.update change done =
      match change store.db with
      | .ok (answer, db) => (.ok answer, ⟨db, done store.handle⟩)
      | .error error => (.error error, store) := by
  have free : ¬ store.db.writeLocked = true := by simp [unlocked]
  rw [update, ensureOpen_of_open isOpen]
  dsimp only
  rw [Database.write, if_neg free]
  cases change store.db <;> rfl

theorem update_of_disposed {α : Type} (disposed : store.handle.disposed = true)
    (change : Database → Except Error (α × Database)) (done : Handle → Handle) :
    store.update change done = (.error .disposed, store) := by
  rw [update, ensureOpen_of_disposed disposed]

/-- A store that is disposed asks nothing of its database. -/
theorem closed (disposed : store.handle.disposed = true) : Call.Closed store := by
  have refused := ensureOpen_of_disposed disposed
  have queried : ∀ {α : Type} (ask : Database → Except Error α), (store.query ask, store) = (.error .disposed, store) := by
    intro α ask
    rw [query, refused]
    rfl
  have removed : ∀ gone, store.remove gone = (.error .disposed, store) := fun gone =>
    update_of_disposed disposed _ _
  constructor
  · exact congrArg (·, store) refused
  · intro attempt
    show store.commit attempt = _
    rw [commit, check, refused]
    rfl
  · exact fun key least most => queried _
  · intro scope after
    show (store.openFeed scope after, store) = _
    rw [openFeed, refused]
    rfl
  · exact fun checkpoint => update_of_disposed disposed _ _
  · exact fun key => queried _
  · exact fun snapshot => update_of_disposed disposed _ _
  · exact fun key most => queried _
  · exact fun bucket threshold => queried _
  · exact fun key => removed _
  · exact fun bucket => removed _
  · exact removed _

/-! ### Commits -/

/-- The store once a commit has been made. -/
def committed (attempt : Attempt) (checkpoint : Checkpoint) (store : DatabaseStore) : DatabaseStore where
  db := store.db.appended attempt checkpoint
  handle := { store.handle with recent := store.handle.recent.insert (commitKey attempt) }

theorem check_of_cached (isOpen : store.handle.disposed = false) {attempt : Attempt}
    (valid : attempt.validate = .ok ()) (cached : store.handle.recent.contains (commitKey attempt) = true) :
    store.check attempt = .error attempt.duplicate := by
  rw [check, ensureOpen_of_open isOpen, valid]
  exact if_pos cached

theorem check_of_invalid (isOpen : store.handle.disposed = false) {attempt : Attempt} {error : Error}
    (invalid : attempt.validate = .error error) : store.check attempt = .error error := by
  rw [check, ensureOpen_of_open isOpen, invalid]
  rfl

theorem check_of_new (isOpen : store.handle.disposed = false) {attempt : Attempt}
    (valid : attempt.validate = .ok ()) (new : ¬ store.handle.recent.contains (commitKey attempt) = true) :
    store.check attempt = .ok () := by
  rw [check, ensureOpen_of_open isOpen, valid]
  exact if_neg new

/-- An attempt is decided by the postings of its stream. What the store remembers makes no difference if
it is still there. -/
theorem commit_eq (holds : store.db.Holds journal) (sound : journal.Sound accepted)
    (isOpen : store.handle.disposed = false) (attempt : Attempt)
    (known : store.handle.recent.contains (commitKey attempt) = true →
      ∃ posting ∈ journal.postings attempt.key, posting.id = attempt.id) :
    store.commit attempt =
      match attempt.refusal (journal.postings attempt.key) with
      | some error => (.error error, store)
      | none =>
        match journal.last.next with
        | .error _ => (.error (.sql "database or disk is full"), store)
        | .ok checkpoint => (.ok (attempt.toCommit checkpoint), store.committed attempt checkpoint) := by
  cases valid : attempt.validate with
  | error error =>
    rw [commit, check_of_invalid isOpen valid, Attempt.refusal_of_invalid valid]
  | ok =>
    by_cases cached : store.handle.recent.contains (commitKey attempt) = true
    · rw [commit, check_of_cached isOpen valid cached, Attempt.refusal_of_valid valid, if_pos (known cached)]
    · rw [commit, check_of_new isOpen valid cached]
      dsimp only
      rw [update_eq isOpen holds.unlocked, holds.append_eq sound valid]
      cases attempt.refusal (journal.postings attempt.key) with
      | some error => rfl
      | none => cases journal.last.next <;> rfl

/-- Whatever the store remembers, an attempt leaves it as it is, or is taken as its journal takes it. -/
theorem commit_cases (holds : store.db.Holds journal) (sound : journal.Sound accepted)
    (isOpen : store.handle.disposed = false) (attempt : Attempt) :
    (∃ error, store.commit attempt = (.error error, store)) ∨
      ∃ checkpoint, attempt.refusal (journal.postings attempt.key) = none ∧ journal.last.next = .ok checkpoint ∧
        store.commit attempt = (.ok (attempt.toCommit checkpoint), store.committed attempt checkpoint) := by
  by_cases known : store.handle.recent.contains (commitKey attempt) = true →
      ∃ posting ∈ journal.postings attempt.key, posting.id = attempt.id
  · rw [commit_eq holds sound isOpen attempt known]
    cases taken : attempt.refusal (journal.postings attempt.key) with
    | some error => exact .inl ⟨error, rfl⟩
    | none =>
      cases next : journal.last.next with
      | error overflow => exact .inl ⟨_, rfl⟩
      | ok checkpoint => exact .inr ⟨checkpoint, rfl, rfl, rfl⟩
  · -- The store remembers a commit that another one has removed.
    have cached := (Classical.not_imp.1 known).1
    cases valid : attempt.validate with
    | error error => exact .inl ⟨error, by rw [commit, check_of_invalid isOpen valid]⟩
    | ok => exact .inl ⟨_, by rw [commit, check_of_cached isOpen valid cached]⟩

/-! ### All calls -/

/-- A feed that is read to its end leaves the store as it is. -/
theorem readFeed_store (store : DatabaseStore) (scope : Scope) (after : Checkpoint) :
    (CommitStore.readFeed scope after store).2 = store :=
  CommitStore.readFeed_store (fun _ => rfl) rfl

/-- What a store that is alone on its database remembers is in the stream. -/
theorem Logs.cached (logs : store.Logs alone journal) (lone : alone) {attempt : Attempt}
    (cached : store.handle.recent.contains (commitKey attempt) = true) :
    ∃ posting ∈ journal.postings attempt.key, posting.id = attempt.id := by
  obtain ⟨commit, member, sameKey, sameId⟩ := logs.remembered lone _ (List.contains_iff_mem.1 cached)
  have inStream : commit ∈ journal.stream attempt.key := List.mem_filter.2 ⟨member, decide_eq_true sameKey⟩
  exact ⟨commit.posting, List.mem_map_of_mem inStream, sameId⟩

theorem Logs.committed (logs : store.Logs alone journal) (attempt : Attempt) (checkpoint : Checkpoint) :
    (store.committed attempt checkpoint).Logs alone (journal.accept attempt checkpoint) where
  holds := logs.holds.appended attempt checkpoint
  remembered lone key member := by
    rw [Journal.commits_accept]
    rcases List.mem_cons.1 (List.mem_of_mem_take member) with rfl | earlier
    · exact ⟨attempt.toCommit checkpoint, by simp, rfl, rfl⟩
    · obtain ⟨commit, known, same⟩ := logs.remembered lone key (List.mem_filter.1 earlier).1
      exact ⟨commit, by simp [known], same⟩

theorem Logs.removed (logs : store.Logs alone journal) (gone : StreamKey → Bool) :
    Logs alone ⟨store.db.removeWhere gone, { store.handle with recent := store.handle.recent.forget gone }⟩
      (journal.remove gone) where
  holds := logs.holds.removeWhere gone
  remembered lone key member := by
    obtain ⟨earlier, stays⟩ := List.mem_filter.1 member
    obtain ⟨commit, known, sameKey, sameId⟩ := logs.remembered lone key earlier
    refine ⟨commit, ?_, sameKey, sameId⟩
    rw [Journal.commits_remove]
    exact List.mem_filter.2 ⟨known, by rw [sameKey]; exact stays⟩

theorem Logs.dispatched (logs : store.Logs alone journal) (checkpoint : Checkpoint) :
    Logs alone { store with db := store.db.markDispatched checkpoint } (journal.dispatch checkpoint) where
  holds := logs.holds.markDispatched checkpoint
  remembered := by
    rw [Journal.commits_dispatch]
    exact logs.remembered

/-- What a commit does to the log. -/
theorem commit_step (logs : store.Logs alone journal) (sound : journal.Sound accepted) (attempt : Attempt) :
    ∃ after, Journal.Step journal ((Call.commit attempt).serve store).1.accepted after ∧
      ((Call.commit attempt).serve store).2.Logs alone after := by
  have served : (Call.commit attempt).serve store = Call.answering .commit (store.commit attempt) := rfl
  rw [served]
  cases disposed : store.handle.disposed with
  | true =>
    have unasked : store.commit attempt = (.error .disposed, store) := (closed disposed).commit attempt
    rw [unasked]
    exact ⟨journal, .stay journal, logs⟩
  | false =>
    rcases commit_cases logs.holds sound disposed attempt with ⟨error, refused⟩ | ⟨checkpoint, taken, next, made⟩
    · rw [refused]
      exact ⟨journal, .stay journal, logs⟩
    · rw [made]
      exact ⟨journal.accept attempt checkpoint, .accept taken next, logs.committed attempt checkpoint⟩

/-- A transaction that cannot be refused, as a step of the log. -/
theorem update_step {α : Type} {change : Database → Except Error (α × Database)} {done : Handle → Handle}
    (reply : α → Call.Reply) (plain : ∀ value, Call.Answer.accepted (.ok (reply value)) = none)
    (logs : store.Logs alone journal) {answer : α} {db : Database} (changed : change store.db = .ok (answer, db))
    {after : Journal} (step : Journal.Step journal none after) (kept : Logs alone ⟨db, done store.handle⟩ after) :
    ∃ after, Journal.Step journal (Call.answering reply (store.update change done)).1.accepted after ∧
      (Call.answering reply (store.update change done)).2.Logs alone after := by
  rw [Call.accepted_answering plain]
  cases disposed : store.handle.disposed with
  | true =>
    rw [update_of_disposed disposed]
    exact ⟨journal, .stay journal, logs⟩
  | false =>
    rw [update_eq disposed logs.holds.unlocked, changed]
    exact ⟨after, step, kept⟩

/-- Every call does to the log what a step may do. -/
theorem serve_step (logs : store.Logs alone journal) (sound : journal.Sound accepted) (call : Call) :
    ∃ after, Journal.Step journal (call.serve store).1.accepted after ∧ (call.serve store).2.Logs alone after := by
  have removed : ∀ gone, ∃ after,
      Journal.Step journal (Call.answering (fun _ => Call.Reply.done) (store.remove gone)).1.accepted after ∧
        (Call.answering (fun _ => Call.Reply.done) (store.remove gone)).2.Logs alone after := fun gone =>
    update_step _ (fun _ => rfl) logs rfl (.remove gone journal) (logs.removed gone)
  -- A call that only reads keeps the log.
  have read : ∀ {α : Type} (reply : α → Call.Reply), (∀ value, Call.Answer.accepted (.ok (reply value)) = none) →
      ∀ served : Except Error α × DatabaseStore, served.2 = store →
        ∃ after, Journal.Step journal (Call.answering reply served).1.accepted after ∧
          (Call.answering reply served).2.Logs alone after := by
    intro α reply plain served same
    rw [Call.accepted_answering plain]
    refine ⟨journal, .stay journal, ?_⟩
    show served.2.Logs alone journal
    rw [same]
    exact logs
  cases call with
  | prepare => exact read _ (fun _ => rfl) _ rfl
  | commit attempt => exact commit_step logs sound attempt
  | getFrom key least most => exact read _ (fun _ => rfl) _ rfl
  | readFeed scope after => exact read _ (fun _ => rfl) _ (readFeed_store store scope after)
  | markDispatched checkpoint =>
    exact update_step _ (fun _ => rfl) logs rfl (.dispatch checkpoint journal) (logs.dispatched checkpoint)
  | head key => exact read _ (fun _ => rfl) _ rfl
  | addSnapshot snapshot =>
    exact update_step _ (fun _ => rfl) logs rfl (.stay journal) ⟨logs.holds.addSnapshot snapshot, logs.remembered⟩
  | snapshot key most => exact read _ (fun _ => rfl) _ rfl
  | streamsToSnapshot bucket threshold => exact read _ (fun _ => rfl) _ rfl
  | deleteStream key => exact removed fun other => other = key
  | purgeBucket bucket => exact removed fun other => other.bucket = bucket
  | purge => exact removed fun _ => true
  | dispose => exact ⟨journal, .stay journal, logs.holds, logs.remembered⟩
  | isDisposed => exact ⟨journal, .stay journal, logs⟩

/-- Over any calls, the log of a store in a database stays sound. -/
theorem serveAll_sound (logs : store.Logs alone journal) (sound : journal.Sound accepted) (calls : List Call) :
    ∃ after, after.Sound (accepted ++ Call.accepted (Call.serveAll calls store).1) ∧
      (Call.serveAll calls store).2.Logs alone after := by
  induction calls generalizing store journal accepted with
  | nil => exact ⟨journal, by simpa [Call.serveAll, Call.accepted] using sound, logs⟩
  | cons call calls ih =>
    obtain ⟨middle, step, logged⟩ := serve_step logs sound call
    obtain ⟨after, soundAfter, loggedAfter⟩ := ih logged (sound.step step)
    rw [List.append_assoc, ← Call.accepted_cons] at soundAfter
    exact ⟨after, soundAfter, loggedAfter⟩

end CommitLog.DatabaseStore
