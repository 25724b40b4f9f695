import CommitLog.EventStream
import CommitLog.Proofs.Database.Calls
import CommitLog.Proofs.WholeCommit

/-!
The write lock of a database. A call either begins a transaction that writes, and is refused and changes nothing while
others have the lock (`DatabaseStore.serve_barred`), or it has the same answer whoever has the lock
(`DatabaseStore.serve_heedless`). The same goes for the clients of streams, which write when they commit.
-/

namespace CommitLog

/-- Whether a call to a store begins a transaction that writes. -/
def Call.writes (call : Call) (store : DatabaseStore) : Bool :=
  !store.handle.disposed &&
    match call with
    | .commit attempt => attempt.validate.isOk && !store.handle.recent.contains (DatabaseStore.commitKey attempt)
    | .markDispatched _ | .addSnapshot _ | .deleteStream _ | .purgeBucket _ | .purge => true
    | _ => false

/-! ### A store and the lock of others -/

namespace DatabaseStore

/-- The store when others have the write lock, or when it is free. -/
def withLock (locked : Bool) (store : DatabaseStore) : DatabaseStore :=
  { store with db := { store.db with writeLocked := locked } }

/-- An operation that does not ask for the write lock, and neither takes it nor gives it back. -/
def Heedless {α : Type} (operation : DatabaseStore → α × DatabaseStore) (store : DatabaseStore) : Prop :=
  ∀ locked, operation (store.withLock locked) = ((operation store).1, (operation store).2.withLock locked)

variable {store : DatabaseStore} {call : Call}

theorem readFeed_heedless (scope : Scope) (after : Checkpoint) (store : DatabaseStore) :
    Heedless (CommitStore.readFeed scope after) store := by
  intro locked
  have same : (store.openFeed scope after).map id = store.openFeed scope after := by
    cases store.openFeed scope after <;> rfl
  rw [readFeed_store]
  refine @CommitStore.readFeed_into DatabaseStore DatabaseStore _ _ store _ id _ _ (fun _ => rfl) (fun _ => rfl) rfl ?_
  show (store.openFeed scope after, _) = ((store.openFeed scope after).map id, _)
  rw [same]

/-- An attempt that does not come to a transaction has something against it that shows without the database. -/
theorem commit_quiet {attempt : Attempt} (quiet : (Call.commit attempt).writes store = false) :
    ∃ error, (∀ key sequence, error ≠ .concurrency key sequence) ∧
      ∀ locked, (store.withLock locked).commit attempt = (.error error, store.withLock locked) := by
  have against : ∃ error, (∀ key sequence, error ≠ .concurrency key sequence) ∧ store.check attempt = .error error := by
    cases disposed : store.handle.disposed with
    | true =>
      refine ⟨.disposed, by simp, ?_⟩
      rw [check, ensureOpen_of_disposed disposed]
      rfl
    | false =>
      cases valid : attempt.validate with
      | error error =>
        refine ⟨error, fun key sequence same => ?_, check_of_invalid disposed valid⟩
        subst same
        unfold Attempt.validate at valid
        split_ifs at valid <;> cases valid
      | ok =>
        have cached : store.handle.recent.contains (commitKey attempt) = true := by
          simpa [Call.writes, disposed, valid, Except.isOk, Except.toBool] using quiet
        exact ⟨_, by simp [Attempt.duplicate], check_of_cached disposed valid cached⟩
  obtain ⟨error, calm, answered⟩ := against
  refine ⟨error, calm, fun locked => ?_⟩
  have alike : (store.withLock locked).check attempt = .error error := answered
  rw [commit, alike]

/-- A call that does not write heeds no lock. -/
theorem serve_heedless (quiet : call.writes store = false) : Heedless call.serve store := by
  intro locked
  cases disposed : store.handle.disposed with
  | true =>
    have refused := @Call.Closed.serve _ _ store (closed disposed) call
    have alike := @Call.Closed.serve _ _ (store.withLock locked) (closed disposed) call
    cases call with
    | dispose | isDisposed => rfl
    | _ => rw [refused (by simp) (by simp), alike (by simp) (by simp)]
  | false =>
    have wrote := quiet
    simp only [Call.writes, disposed, Bool.not_false, Bool.true_and] at quiet
    cases call with
    | commit attempt =>
      obtain ⟨error, -, answered⟩ := commit_quiet wrote
      show Call.answering .commit ((store.withLock locked).commit attempt) =
        ((Call.answering .commit (store.commit attempt)).1, (store.commit attempt).2.withLock locked)
      have here : store.commit attempt = (.error error, store) := answered store.db.writeLocked
      rw [answered, here]
      rfl
    | readFeed scope after =>
      have read := readFeed_heedless scope after store locked
      show Call.answering .items _ = ((Call.answering .items (CommitStore.readFeed scope after store)).1, _)
      rw [read]
      rfl
    | markDispatched | addSnapshot | deleteStream | purgeBucket | purge => simp at quiet
    | _ => rfl

/-- Of the calls that do not write, only one changes the store. -/
theorem serve_quiet (quiet : call.writes store = false) (stays : call ≠ .dispose) : (call.serve store).2 = store := by
  cases disposed : store.handle.disposed with
  | true =>
    by_cases asks : call = .isDisposed
    · rw [asks]
      rfl
    · rw [Call.Closed.serve (closed disposed) stays asks]
  | false =>
    have wrote := quiet
    simp only [Call.writes, disposed, Bool.not_false, Bool.true_and] at quiet
    cases call with
    | commit attempt =>
      obtain ⟨error, -, answered⟩ := commit_quiet wrote
      have here : store.commit attempt = (.error error, store) := answered store.db.writeLocked
      show (store.commit attempt).2 = store
      rw [here]
    | readFeed scope after => exact readFeed_store store scope after
    | markDispatched | addSnapshot | deleteStream | purgeBucket | purge => simp at quiet
    | dispose => exact absurd rfl stays
    | _ => rfl

theorem update_barred {α : Type} (isOpen : store.handle.disposed = false) (locked : store.db.writeLocked = true)
    (change : Database → Except Error (α × Database)) (done : Handle → Handle) :
    store.update change done = (.error (.storageUnavailable .locked), store) := by
  rw [update, ensureOpen_of_open isOpen]
  dsimp only
  rw [Database.write, if_pos locked]

/-- An attempt that comes to a transaction is refused while others have the lock. -/
theorem commit_barred {attempt : Attempt} (wrote : (Call.commit attempt).writes store = true)
    (locked : store.db.writeLocked = true) :
    store.commit attempt = (.error (.storageUnavailable .locked), store) := by
  obtain ⟨isOpen, valid, new⟩ : store.handle.disposed = false ∧ attempt.validate = .ok () ∧
      ¬ store.handle.recent.contains (commitKey attempt) = true := by
    cases valid : attempt.validate with
    | error => simp [Call.writes, valid, Except.isOk, Except.toBool] at wrote
    | ok => simpa [Call.writes, valid, Except.isOk, Except.toBool] using wrote
  rw [commit, check_of_new isOpen valid new]
  dsimp only
  rw [update_barred isOpen locked]

/-- A call that writes is refused while others have the lock, and changes nothing. -/
theorem serve_barred (wrote : call.writes store = true) (locked : store.db.writeLocked = true) :
    call.serve store = (.error (.storageUnavailable .locked), store) := by
  have writes := wrote
  unfold Call.writes at writes
  rw [Bool.and_eq_true, Bool.not_eq_true'] at writes
  obtain ⟨isOpen, writes⟩ := writes
  have barred : ∀ {α : Type} (reply : α → Call.Reply) (change : Database → Except Error (α × Database))
      (done : Handle → Handle), Call.answering reply (store.update change done) =
        (.error (.storageUnavailable .locked), store) := by
    intro α reply change done
    rw [update_barred isOpen locked]
    rfl
  cases call with
  | commit attempt =>
    show Call.answering .commit (store.commit attempt) = _
    rw [commit_barred wrote locked]
    rfl
  | markDispatched | addSnapshot | deleteStream | purgeBucket | purge => exact barred _ _ _
  | _ => simp at writes

theorem append_writeLocked {attempt : Attempt} {db after : Database} {checkpoint : Checkpoint}
    (appended : db.append attempt = .ok (checkpoint, after)) : after.writeLocked = db.writeLocked := by
  unfold Database.append at appended
  split at appended
  · cases appended
  obtain ⟨⟨⟩, -, rest⟩ := Except.bind_eq_ok.1 appended
  dsimp only at rest
  split at rest
  · obtain ⟨_, ⟨⟩, rest⟩ := Except.bind_eq_ok.1 rest
    split at rest
    · cases rest
    · cases rest
      rfl
  · cases rest

theorem addSnapshot_writeLocked (snapshot : Snapshot) (db : Database) :
    (db.addSnapshot snapshot).2.writeLocked = db.writeLocked := by
  unfold Database.addSnapshot
  dsimp only
  split
  · rfl
  split <;> rfl

/-- No call takes the lock for good. -/
theorem serve_unlocked (call : Call) (unlocked : store.db.writeLocked = false) :
    (call.serve store).2.db.writeLocked = false := by
  have changed : ∀ {α : Type} {change : Database → Except Error (α × Database)} {done : Handle → Handle},
      (∀ answer after, change store.db = .ok (answer, after) → after.writeLocked = store.db.writeLocked) →
        (store.update change done).2.db.writeLocked = false := by
    intro α change done kept
    cases disposed : store.handle.disposed with
    | true =>
      rw [update_of_disposed disposed]
      exact unlocked
    | false =>
      rw [update_eq disposed unlocked]
      split
      · next answer after made => exact (kept answer after made).trans unlocked
      · exact unlocked
  have removed : ∀ gone, (store.remove gone).2.db.writeLocked = false := fun gone =>
    changed fun _ _ made => by cases made; rfl
  cases call with
  | commit attempt =>
    show (store.commit attempt).2.db.writeLocked = false
    rw [commit]
    split
    · exact unlocked
    have kept := @changed _ (Database.append attempt)
      (fun handle => { handle with recent := handle.recent.insert (commitKey attempt) })
      fun _ _ appended => append_writeLocked appended
    dsimp only
    split
    · next made => rwa [made] at kept
    · next failed => rwa [failed] at kept
  | readFeed scope after =>
    show (CommitStore.readFeed scope after store).2.db.writeLocked = false
    rw [readFeed_store]
    exact unlocked
  | markDispatched checkpoint => exact changed fun _ _ made => by cases made; rfl
  | addSnapshot snapshot =>
    refine changed fun _ _ made => ?_
    have kept := addSnapshot_writeLocked snapshot store.db
    rwa [Except.ok.inj made] at kept
  | deleteStream key => exact removed _
  | purgeBucket bucket => exact removed _
  | purge => exact removed _
  | _ => exact unlocked

end DatabaseStore

/-! ### Clients and the lock of others -/

namespace EventStream

/-- The attempt that a client makes to commit its changes, if it makes one. -/
def attempt? (id : CommitId) (now : UInt64) (client : EventStream) : Option Attempt :=
  if client.uncommitted.isEmpty ∨ client.ids.contains id then none else (client.attempt id now).toOption

variable {client : EventStream} {id : CommitId} {now : UInt64} {store : DatabaseStore}

/-- A client that makes no attempt has its answer from what it knows itself. -/
theorem commitChanges_idle (idle : client.attempt? id now = none) : ∃ answer, ∀ store : DatabaseStore,
    client.commitChanges id now store = (answer, client, store) := by
  unfold attempt? at idle
  split at idle
  · next known =>
    by_cases clean : client.uncommitted.isEmpty = true
    · exact ⟨.ok none, fun store => by rw [commitChanges, if_pos clean]⟩
    · have member := known.resolve_left clean
      exact ⟨.error (.duplicateCommit client.key id), fun store => by rw [commitChanges, if_neg clean, if_pos member]⟩
  · next unknown =>
    rw [not_or] at unknown
    cases made : client.attempt id now with
    | error overflow =>
      refine ⟨.error (.overflow overflow), fun store => ?_⟩
      rw [commitChanges, if_neg unknown.1, if_neg unknown.2, made]
    | ok attempt => simp [made, Except.toOption] at idle

/-- What a client makes of the answer to its attempt. -/
def hear (client : EventStream) : Except Error Commit × DatabaseStore →
    Except Error (Option Commit) × EventStream × DatabaseStore
  | (.ok commit, store) =>
    match client.follow [commit] with
    | (.error overflow, client) => (.error (.overflow overflow), client, store)
    | (.ok (), client) => (.ok (some commit), client.clearChanges, store)
  | (.error (.concurrency key sequence), store) =>
    match client.refresh store with
    | (.error overflow, client, store) => (.error (.overflow overflow), client, store)
    | (.ok (), client, store) => (.error (.concurrency key sequence), client, store)
  | (.error error, store) => (.error error, client, store)

theorem commitChanges_tried {attempt : Attempt} (tried : client.attempt? id now = some attempt)
    (store : DatabaseStore) : client.commitChanges id now store = client.hear (store.commit attempt) := by
  unfold attempt? at tried
  split at tried
  · cases tried
  · next unknown =>
    rw [not_or] at unknown
    cases made : client.attempt id now with
    | error overflow => simp [made, Except.toOption] at tried
    | ok other =>
      rw [made] at tried
      cases tried
      rw [commitChanges, if_neg unknown.1, if_neg unknown.2, made]
      have same : CommitStore.commit attempt store = store.commit attempt := rfl
      dsimp only
      rw [same]
      obtain ⟨answer, after⟩ := store.commit attempt
      cases answer with
      | ok commit => rfl
      | error error =>
        cases error with
        | concurrency key sequence =>
          rw [hear]
          dsimp only
          obtain ⟨outcome | ⟨⟩, view, last⟩ := client.refresh after <;> rfl
        | _ => rfl

/-- A refresh only reads. -/
theorem refresh_withLock (client : EventStream) (locked : Bool) (store : DatabaseStore) :
    (client.refresh store).2.2 = store ∧ client.refresh (store.withLock locked) =
      ((client.refresh store).1, (client.refresh store).2.1, store.withLock locked) := by
  rw [refresh, refresh]
  cases Overflow.sum client.revision 1 with
  | error overflow => exact ⟨rfl, rfl⟩
  | ok least =>
    have read : ∀ store : DatabaseStore, CommitStore.getFrom client.key least maxRevision store =
        (store.getFrom client.key least maxRevision, store) := fun _ => rfl
    have alike : (store.withLock locked).getFrom client.key least maxRevision =
        store.getFrom client.key least maxRevision := rfl
    dsimp only
    rw [read, read, alike]
    cases store.getFrom client.key least maxRevision with
    | ok commits => exact ⟨rfl, rfl⟩
    | error error => cases error <;> exact ⟨rfl, rfl⟩

theorem hear_withLock (client : EventStream) (locked : Bool) (answer : Except Error Commit) (store : DatabaseStore) :
    (client.hear (answer, store)).2.2 = store ∧ client.hear (answer, store.withLock locked) =
      ((client.hear (answer, store)).1, (client.hear (answer, store)).2.1, store.withLock locked) := by
  cases answer with
  | ok commit =>
    rw [hear, hear]
    obtain ⟨outcome | ⟨⟩, view⟩ := client.follow [commit]
    · exact ⟨rfl, rfl⟩
    · exact ⟨rfl, rfl⟩
  | error error =>
    cases error with
    | concurrency key sequence =>
      obtain ⟨stays, read⟩ := client.refresh_withLock locked store
      rw [hear, hear, read]
      generalize client.refresh store = refreshed at stays
      obtain ⟨outcome | ⟨⟩, view, after⟩ := refreshed
      · exact ⟨stays, rfl⟩
      · exact ⟨stays, rfl⟩
    | _ => exact ⟨rfl, rfl⟩

theorem hear_calm {error : Error} (calm : ∀ key sequence, error ≠ .concurrency key sequence) (client : EventStream)
    (store : DatabaseStore) : client.hear (.error error, store) = (.error error, client, store) := by
  cases error with
  | concurrency key sequence => exact absurd rfl (calm key sequence)
  | _ => rfl

/-- A window is only read. -/
theorem openWindow_withLock (key : StreamKey) (least most : UInt64) (locked : Bool) (store : DatabaseStore) :
    (openWindow key least most store).2 = store ∧ openWindow key least most (store.withLock locked) =
      ((openWindow key least most store).1, store.withLock locked) := by
  have read : ∀ store : DatabaseStore,
      CommitStore.getFrom key least most store = (store.getFrom key least most, store) :=
    fun _ => rfl
  have alike : (store.withLock locked).getFrom key least most = store.getFrom key least most := rfl
  rw [openWindow, openWindow, read, read, alike]
  cases store.getFrom key least most with
  | error error => exact ⟨rfl, rfl⟩
  | ok commits =>
    dsimp only
    obtain ⟨outcome | ⟨⟩, view⟩ := populate least most commits (create key)
    · exact ⟨rfl, rfl⟩
    · dsimp only
      split <;> exact ⟨rfl, rfl⟩

end EventStream

end CommitLog
