import CommitLog.Proofs.Duplicates
import CommitLog.Proofs.Heads

/-!
The stores that any calls can lead to: a store in memory, and a store on a database that other stores were, and
may still be, at work on (`Engine.Reached`). Whatever has been asked and answered, the store has kept to it
(`Engine.Reflects`). What it remembers of its commits plays no part when it is read, so that it reads as a store
that remembers nothing (`Engine.forgetful`), and none in an attempt that no one has made before.
-/

namespace CommitLog

/-- What stores have been asked, and what they have answered. -/
abbrev History := List (Call × Call.Answer)

namespace History

/-- The commits that have been accepted, in order. -/
def accepted (history : History) : List Commit := Call.accepted (history.map Prod.snd)

/-- The snapshot that a store says it has added. -/
def added : Call → Call.Answer → Option Snapshot
  | .addSnapshot snapshot, .ok (.flag true) => some snapshot
  | _, _ => none

/-- What a call that has been answered leaves of the snapshots there are, and what it adds. -/
def keep (snapshots : List Snapshot) : Call × Call.Answer → List Snapshot
  | (_, .error _) => snapshots
  | (call, .ok reply) => snapshots.filter (fun snapshot => !call.removes snapshot.key) ++ (added call (.ok reply)).toList

/-- The snapshots that have been added and have not been removed with their streams since. -/
def snapshots (history : History) : List Snapshot := history.foldl keep []

/-- No two snapshots of a stream are kept in the same place. -/
def Single {α : Type} (place : Snapshot → α) (snapshots : List Snapshot) : Prop :=
  (snapshots.map fun snapshot => (snapshot.key, place snapshot)).Nodup

theorem accepted_concat (history : History) (call : Call) (answer : Call.Answer) :
    (history ++ [(call, answer)]).accepted = history.accepted ++ answer.accepted.toList := by
  rw [accepted, accepted, List.map_append, Call.accepted, List.filterMap_append]
  exact congrArg (Call.accepted (history.map Prod.snd) ++ ·) ((Call.accepted_cons answer []).trans (List.append_nil _))

theorem snapshots_concat (history : History) (call : Call) (answer : Call.Answer) :
    (history ++ [(call, answer)]).snapshots = keep history.snapshots (call, answer) :=
  List.foldl_append

/-- A call that is neither for a snapshot nor for a removal leaves the snapshots as they are. -/
theorem keep_of_other {call : Call} (other : ∀ snapshot, call ≠ .addSnapshot snapshot)
    (stays : ∀ key, call.removes key = false) (snapshots : List Snapshot) (answer : Call.Answer) :
    keep snapshots (call, answer) = snapshots := by
  have nothing : ∀ reply, added call (.ok reply) = none := by
    intro reply
    cases call with
    | addSnapshot snapshot => exact absurd rfl (other snapshot)
    | _ => rfl
  cases answer with
  | error error => rfl
  | ok reply =>
    rw [keep, nothing, Option.toList_none, List.append_nil]
    exact List.filter_eq_self.2 fun snapshot _ => by simp [stays]

/-- A snapshot that is added where there was none leaves all in places of their own. -/
theorem Single.keep {α : Type} {place : Snapshot → α} {snapshots : List Snapshot} (single : Single place snapshots)
    {call : Call} {answer : Call.Answer} (new : ∀ snapshot, added call answer = some snapshot →
      ∀ other ∈ snapshots, other.key = snapshot.key → place other ≠ place snapshot) :
    Single place (keep snapshots (call, answer)) := by
  cases answer with
  | error error => exact single
  | ok reply =>
    have kept : Single place (snapshots.filter fun snapshot => !call.removes snapshot.key) :=
      single.sublist (List.filter_sublist.map _)
    rw [History.keep]
    cases found : added call (.ok reply) with
    | none =>
      rw [Option.toList_none, List.append_nil]
      exact kept
    | some snapshot =>
      rw [Single, Option.toList_some, List.map_append, List.nodup_append]
      refine ⟨kept, by simp, ?_⟩
      rintro _ earlier _ last same
      obtain ⟨other, member, rfl⟩ := List.mem_map.1 earlier
      rw [List.map_singleton, List.mem_singleton] at last
      obtain ⟨sameKey, samePlace⟩ := Prod.mk.inj (same.trans last)
      exact new snapshot found other (List.mem_filter.1 member).1 sameKey samePlace

end History

/-! ### The stores there may be -/

/-- A store in memory after a history. -/
inductive MemoryStore.Reached : MemoryStore → History → Prop where
  | create (config : MemoryConfig) : Reached (.create config) []
  | call {store : MemoryStore} {history : History} (reached : Reached store history) (call : Call) :
    Reached (call.serve store).2 (history ++ [(call, (call.serve store).1)])

/-- Stores on one database after a history that they have in common. -/
inductive SharedDatabase.Reached : SharedDatabase → History → Prop where
  | empty : Reached {} []
  | join {shared : SharedDatabase} {history : History} (reached : Reached shared history) (number : Nat)
    (config : DatabaseConfig) : Reached (shared.act (.join number config)).2 history
  | call {shared : SharedDatabase} {history : History} (reached : Reached shared history) {number : Nat}
    {handle : Handle} (seated : shared.handles number = some handle) (call : Call) :
    Reached (shared.act (.call number call)).2
      (history ++ [(call, (call.serve (DatabaseStore.mk shared.db handle)).1)])

/-- An engine after a history. If it is a database, the history is that of all its stores. -/
inductive Engine.Reached : Engine → History → Prop where
  | memory {store : MemoryStore} {history : History} (reached : store.Reached history) :
    Reached (.memory store) history
  | database {shared : SharedDatabase} {history : History} (reached : shared.Reached history) {number : Nat}
    {handle : Handle} (seated : shared.handles number = some handle) :
    Reached (.database ⟨shared.db, handle⟩) history

namespace Engine.Reached

variable {history : History}

/-- A store that has been reached reaches another by a call. -/
theorem call_memory {store : MemoryStore} (reached : Engine.Reached (.memory store) history) (call : Call) :
    Engine.Reached (.memory (call.serve store).2) (history ++ [(call, (call.serve store).1)]) := by
  cases reached with
  | memory reached => exact .memory (reached.call call)

theorem call_database {store : DatabaseStore} (reached : Engine.Reached (.database store) history) (call : Call) :
    Engine.Reached (.database (call.serve store).2) (history ++ [(call, (call.serve store).1)]) := by
  cases reached with
  | database reached seated =>
    have next := reached.call seated call
    rw [SharedDatabase.act, seated] at next
    exact .database next (if_pos rfl)

/-- A store in memory, from its start. -/
theorem inMemory (config : MemoryConfig) (calls : List Call) :
    Engine.Reached (.memory (Call.serveAll calls (MemoryStore.create config)).2)
      (calls.zip (Call.serveAll calls (MemoryStore.create config)).1) := by
  have all : ∀ {store history}, Engine.Reached (.memory store) history → Engine.Reached
      (.memory (Call.serveAll calls store).2) (history ++ calls.zip (Call.serveAll calls store).1) := by
    induction calls with
    | nil => exact fun reached => by simpa [Call.serveAll] using reached
    | cons call calls ih => exact fun reached => by simpa [Call.serveAll] using ih (reached.call_memory call)
  exact all (.memory (.create config))

/-- A store on a database of its own, from its start. -/
theorem inDatabase (config : DatabaseConfig) (calls : List Call) :
    Engine.Reached (.database (Call.serveAll calls (DatabaseStore.fresh config)).2)
      (calls.zip (Call.serveAll calls (DatabaseStore.fresh config)).1) := by
  have all : ∀ {store history}, Engine.Reached (.database store) history → Engine.Reached
      (.database (Call.serveAll calls store).2) (history ++ calls.zip (Call.serveAll calls store).1) := by
    induction calls with
    | nil => exact fun reached => by simpa [Call.serveAll] using reached
    | cons call calls ih => exact fun reached => by simpa [Call.serveAll] using ih (reached.call_database call)
  have seated : (SharedDatabase.act (.join 0 config) {}).2.handles 0 = some (Handle.create config) := rfl
  exact all (.database (.join .empty 0 config) seated)

end Engine.Reached

/-! ### What a history leaves -/

theorem History.keep_addSnapshot (snapshots : List Snapshot) (snapshot : Snapshot) (value : Bool) :
    keep snapshots (.addSnapshot snapshot, .ok (.flag value)) = if value then snapshots ++ [snapshot] else snapshots := by
  have all : snapshots.filter (fun other => !(Call.addSnapshot snapshot).removes other.key) = snapshots :=
    List.filter_eq_self.2 fun _ _ => rfl
  cases value with
  | true => exact congrArg (· ++ [snapshot]) all
  | false => exact (List.append_nil _).trans all

theorem History.keep_done (snapshots : List Snapshot) (call : Call) :
    keep snapshots (call, .ok .done) = snapshots.filter fun snapshot => !call.removes snapshot.key := by
  have nothing : added call (.ok .done) = none := by cases call <;> rfl
  rw [keep, nothing, Option.toList_none, List.append_nil]

/-- A ledger keeps the snapshots that a history leaves. -/
theorem Ledger.snapshots_answer (ledger : Ledger) (call : Call) :
    (ledger.answer call).2.snapshots = History.keep ledger.snapshots (call, (ledger.answer call).1) := by
  have other : ∀ {after : Ledger} {answer : Call.Answer}, after.snapshots = ledger.snapshots →
      (∀ snapshot, call ≠ .addSnapshot snapshot) → (∀ key, call.removes key = false) →
        after.snapshots = History.keep ledger.snapshots (call, answer) :=
    fun same plain stays => same.trans (History.keep_of_other plain stays _ _).symm
  cases disposed : ledger.disposed with
  | true =>
    rw [answer_of_disposed disposed]
    cases call with
    | dispose | isDisposed => exact other rfl (by simp) fun _ => rfl
    | _ => rfl
  | false =>
    rw [answer_of_open disposed]
    cases call with
    | commit attempt =>
      refine other ?_ (by simp) fun _ => rfl
      show (ledger.commit attempt).2.snapshots = _
      unfold Ledger.commit
      split
      · rfl
      split <;> rfl
    | addSnapshot snapshot =>
      show (ledger.addSnapshot snapshot).2.snapshots =
        History.keep ledger.snapshots (.addSnapshot snapshot, .ok (.flag (ledger.addSnapshot snapshot).1))
      rw [History.keep_addSnapshot]
      unfold Ledger.addSnapshot
      split
      · rfl
      split <;> rfl
    | deleteStream key => exact (List.append_nil _).symm
    | purgeBucket bucket => exact (List.append_nil _).symm
    | purge => exact (List.append_nil _).symm
    | _ => exact other rfl (by simp) fun _ => rfl

/-- A snapshot is added to a ledger if there is none of its revision. -/
theorem Ledger.added_new (ledger : Ledger) {call : Call} {snapshot : Snapshot}
    (added : History.added call (ledger.answer call).1 = some snapshot) :
    ∀ other ∈ ledger.snapshots, other.key = snapshot.key → other.revision ≠ snapshot.revision := by
  intro other member sameKey sameRevision
  cases call with
  | addSnapshot offered =>
    cases disposed : ledger.disposed with
    | true =>
      rw [answer_of_disposed disposed] at added
      cases added
    | false =>
      rw [answer_of_open disposed] at added
      replace added : History.added (.addSnapshot offered) (.ok (.flag (ledger.addSnapshot offered).1)) = some snapshot :=
        added
      unfold Ledger.addSnapshot at added
      split at added
      · cases added
      split at added
      · cases added
      next new =>
      cases added
      exact new (List.any_eq_true.2 ⟨other, member, by simp [sameKey, sameRevision]⟩)
  | _ => cases added

/-- Streams are removed with the rows of their snapshots. -/
theorem DatabaseStore.snapshots_remove {store : DatabaseStore} (isOpen : store.handle.disposed = false)
    (unlocked : store.db.writeLocked = false) (gone : StreamKey → Bool) :
    (store.remove gone).1 = .ok () ∧
      (store.remove gone).2.db.snapshots = store.db.snapshots.filter fun row => !gone row.key := by
  rw [remove, update_eq isOpen unlocked]
  exact ⟨rfl, rfl⟩

theorem DatabaseStore.snapshots_commit {store : DatabaseStore} {journal : Journal} {accepted : List Commit}
    (holds : store.db.Holds journal) (sound : journal.Sound accepted) (isOpen : store.handle.disposed = false)
    (attempt : Attempt) : (store.commit attempt).2.db.snapshots = store.db.snapshots := by
  rcases commit_cases holds sound isOpen attempt with ⟨error, refused⟩ | ⟨checkpoint, -, -, made⟩
  · rw [refused]
  · rw [made]
    rfl

/-- A database keeps the rows of the snapshots that a history leaves. -/
theorem DatabaseStore.snapshots_serve {store : DatabaseStore} {journal : Journal} {accepted : List Commit}
    (holds : store.db.Holds journal) (sound : journal.Sound accepted) {snapshots : List Snapshot}
    (rows : store.db.snapshots = snapshots.map Snapshot.row) (call : Call) :
    (call.serve store).2.db.snapshots =
      (History.keep snapshots (call, (call.serve store).1)).map Snapshot.row := by
  have other : ∀ {after : DatabaseStore} {answer : Call.Answer}, after.db.snapshots = store.db.snapshots →
      (∀ snapshot, call ≠ .addSnapshot snapshot) → (∀ key, call.removes key = false) →
        after.db.snapshots = (History.keep snapshots (call, answer)).map Snapshot.row := by
    intro after answer same plain stays
    rw [same, rows, History.keep_of_other plain stays]
  cases disposed : store.handle.disposed with
  | true =>
    have refused := @Call.Closed.serve _ _ store (closed disposed) call
    cases call with
    | dispose | isDisposed => exact other rfl (by simp) fun _ => rfl
    | _ =>
      rw [refused (by simp) (by simp)]
      exact rows
  | false =>
    have removed : ∀ gone served, (∀ key, call.removes key = gone key) →
        served = Call.answering (fun _ => Call.Reply.done) (store.remove gone) →
          served.2.db.snapshots = (History.keep snapshots (call, served.1)).map Snapshot.row := by
      rintro gone served removes rfl
      obtain ⟨done, left⟩ := snapshots_remove disposed holds.unlocked gone
      show (store.remove gone).2.db.snapshots =
        (History.keep snapshots (call, (store.remove gone).1.map fun _ => .done)).map Snapshot.row
      rw [left, done, Except.map, History.keep_done]
      simp only [removes, rows, List.filter_map]
      rfl
    cases call with
    | commit attempt => exact other (snapshots_commit holds sound disposed attempt) (by simp) fun _ => rfl
    | addSnapshot snapshot =>
      show (store.addSnapshot snapshot).2.db.snapshots = (History.keep snapshots
        (.addSnapshot snapshot, (store.addSnapshot snapshot).1.map Call.Reply.flag)).map Snapshot.row
      rw [addSnapshot, update_eq disposed holds.unlocked]
      dsimp only
      rw [Except.map, History.keep_addSnapshot]
      unfold Database.addSnapshot
      dsimp only
      split
      · exact rows
      split
      · exact rows
      · rw [if_pos rfl, List.map_append, ← rows]
        rfl
    | markDispatched checkpoint =>
      refine other ?_ (by simp) fun _ => rfl
      show (store.markDispatched checkpoint).2.db.snapshots = _
      rw [markDispatched, update_eq disposed holds.unlocked]
      rfl
    | readFeed scope after =>
      refine other ?_ (by simp) fun _ => rfl
      show (CommitStore.readFeed scope after store).2.db.snapshots = _
      rw [readFeed_store]
    | deleteStream key => exact removed _ _ (fun _ => rfl) rfl
    | purgeBucket bucket => exact removed _ _ (fun _ => rfl) rfl
    | purge => exact removed _ _ (fun _ => rfl) rfl
    | dispose | prepare | getFrom | head | snapshot | streamsToSnapshot | isDisposed =>
      exact other rfl (by simp) fun _ => rfl

/-- A snapshot is added to a database if there is no row of its revision. -/
theorem DatabaseStore.added_new {store : DatabaseStore} (unlocked : store.db.writeLocked = false)
    {snapshots : List Snapshot} (rows : store.db.snapshots = snapshots.map Snapshot.row) {call : Call} {snapshot : Snapshot}
    (added : History.added call (call.serve store).1 = some snapshot) :
    ∀ other ∈ snapshots, other.key = snapshot.key → other.row.revision ≠ snapshot.row.revision := by
  intro other member sameKey sameRevision
  cases call with
  | addSnapshot offered =>
    cases disposed : store.handle.disposed with
    | true =>
      rw [@Call.Closed.serve _ _ store (closed disposed) (.addSnapshot offered) (by simp) (by simp)] at added
      cases added
    | false =>
      replace added : History.added (.addSnapshot offered) ((store.addSnapshot offered).1.map .flag) = some snapshot :=
        added
      rw [addSnapshot, update_eq disposed unlocked] at added
      replace added : History.added (.addSnapshot offered) (.ok (.flag (store.db.addSnapshot offered).1)) = some snapshot :=
        added
      unfold Database.addSnapshot at added
      dsimp only at added
      split at added
      · cases added
      split at added
      · cases added
      next new =>
      cases added
      refine new (List.any_eq_true.2 ⟨other.row, ?_, decide_eq_true ⟨sameKey, sameRevision⟩⟩)
      rw [rows]
      exact List.mem_map_of_mem member
  | _ => cases added

/-- The commits that a store remembers have all been accepted. -/
def Handle.Recalls (handle : Handle) (accepted : List Commit) : Prop :=
  ∀ key ∈ handle.recent.keys, ∃ commit ∈ accepted, commit.key = key.stream ∧ commit.id = key.id

/-- A commit in the table has been accepted. -/
theorem Database.Stores.accepted {db : Database} {journal : Journal} {accepted : List Commit} {key : CommitKey}
    (stored : db.Stores key) (holds : db.Holds journal) (sound : journal.Sound accepted) :
    ∃ commit ∈ accepted, commit.key = key.stream ∧ commit.id = key.id := by
  obtain ⟨row, member, same⟩ := stored
  rw [holds.rows] at member
  obtain ⟨entry, inJournal, rfl⟩ := List.mem_map.1 member
  exact ⟨entry.commit, sound.kept.subset (List.mem_map_of_mem inJournal), same⟩

namespace SharedDatabase

variable {shared : SharedDatabase} {history : History}

/-- What stores have in common after a history: a log, heads and snapshots; and what they remember. -/
structure Reflects (history : History) (shared : SharedDatabase) (journal : Journal) : Prop where
  sound : journal.Sound history.accepted
  holds : shared.db.Holds journal
  inStep : ∀ key, shared.db.InStep key
  snapshots : shared.db.snapshots = history.snapshots.map Snapshot.row
  single : History.Single (fun snapshot => snapshot.row.revision) history.snapshots
  recalls : ∀ number handle, shared.handles number = some handle → handle.Recalls history.accepted

theorem act_join (number : Nat) (config : DatabaseConfig) (shared : SharedDatabase) :
    (act (.join number config) shared).2.db = shared.db.verifyVersion.2 ∧
      ∀ other handle, (act (.join number config) shared).2.handles other = some handle →
        shared.handles other = some handle ∨ handle = Handle.create config := by
  rw [act, DatabaseStore.open?]
  generalize shared.db.verifyVersion = verified
  obtain ⟨result, db⟩ := verified
  cases result with
  | error error => exact ⟨rfl, fun other handle seated => .inl seated⟩
  | ok =>
    refine ⟨rfl, fun other handle seated => ?_⟩
    by_cases same : other = number
    · exact .inr (Option.some.inj ((if_pos same).symm.trans seated)).symm
    · exact .inl ((if_neg same).symm.trans seated)

/-- Another store on the database leaves what is in it as it is. -/
theorem Reflects.join {journal : Journal} (reflects : shared.Reflects history journal) (number : Nat)
    (config : DatabaseConfig) : (act (.join number config) shared).2.Reflects history journal := by
  obtain ⟨same, seats⟩ := act_join number config shared
  have alike : ∀ key, Database.Alike key shared.db.verifyVersion.2 shared.db := by
    intro key
    unfold Database.verifyVersion Database.write
    split
    · split <;> exact .refl key shared.db
    · split <;> exact ⟨rfl, rfl, rfl⟩
  refine ⟨reflects.sound, ?_, fun key => ?_, ?_, reflects.single, fun other handle seated => ?_⟩
  · rw [same]
    exact reflects.holds.verifyVersion
  · rw [same]
    exact .of_alike (alike key) (reflects.inStep key)
  · rw [same, ← reflects.snapshots]
    unfold Database.verifyVersion Database.write
    split
    · split <;> rfl
    · split <;> rfl
  · rcases seats other handle seated with before | rfl
    · exact reflects.recalls other handle before
    · intro key member
      simp [Handle.create] at member

/-- A call of one of the stores. -/
theorem Reflects.call {journal : Journal} (reflects : shared.Reflects history journal) {number : Nat} {handle : Handle}
    (seated : shared.handles number = some handle) (call : Call) :
    ∃ after, (act (.call number call) shared).2.Reflects
      (history ++ [(call, (call.serve (DatabaseStore.mk shared.db handle)).1)]) after := by
  have lent : DatabaseStore.Logs False ⟨shared.db, handle⟩ journal := ⟨reflects.holds, False.elim⟩
  obtain ⟨after, step, logged⟩ := DatabaseStore.serve_step lent reflects.sound call
  have accounts := DatabaseStore.Accounts.serve call ⟨shared.db, handle⟩
  have sound := reflects.sound.step step
  rw [← History.accepted_concat] at sound
  have acted : (act (.call number call) shared).2 =
      ⟨(call.serve (DatabaseStore.mk shared.db handle)).2.db,
        put number (call.serve (DatabaseStore.mk shared.db handle)).2.handle shared.handles⟩ := by
    rw [act, seated]
  have kept : ∀ {other : Handle}, other.Recalls history.accepted → other.Recalls
      (history ++ [(call, (call.serve (DatabaseStore.mk shared.db handle)).1)]).accepted := by
    intro other recalls key member
    obtain ⟨commit, known, same⟩ := recalls key member
    rw [History.accepted_concat]
    exact ⟨commit, List.mem_append_left _ known, same⟩
  rw [acted]
  refine ⟨after, sound, logged.holds, fun key => ?_, ?_, ?_, fun other next found => ?_⟩
  · exact DatabaseStore.inStep_serve reflects.holds reflects.sound (reflects.inStep key) call
  · rw [History.snapshots_concat]
    exact DatabaseStore.snapshots_serve reflects.holds reflects.sound reflects.snapshots call
  · rw [History.snapshots_concat]
    exact reflects.single.keep fun snapshot =>
      @DatabaseStore.added_new ⟨shared.db, handle⟩ reflects.holds.unlocked _ reflects.snapshots call snapshot
  · by_cases own : other = number
    · cases (if_pos own).symm.trans found
      intro key member
      rcases accounts.recent key member with stored | ⟨earlier, -⟩
      · exact stored.accepted logged.holds sound
      · exact kept (reflects.recalls number handle seated) key earlier
    · exact kept (reflects.recalls other next ((if_neg own).symm.trans found))

theorem Reached.reflects (reached : shared.Reached history) : ∃ journal, shared.Reflects history journal := by
  induction reached with
  | empty =>
    refine ⟨{}, .empty, .empty, fun key => .empty key, rfl, .nil, fun number handle seated => ?_⟩
    cases seated
  | join reached number config ih =>
    obtain ⟨journal, reflects⟩ := ih
    exact ⟨journal, reflects.join number config⟩
  | call reached seated call ih =>
    obtain ⟨journal, reflects⟩ := ih
    exact reflects.call seated call

end SharedDatabase

/-- A store in memory keeps a ledger that has kept to the history. -/
theorem MemoryStore.Reached.reflects {store : MemoryStore} {history : History} (reached : store.Reached history) :
    ∃ ledger : Ledger, store.Keeps ledger ∧ ledger.Sound history.accepted ∧ (∀ key, ledger.InStep key) ∧
      ledger.snapshots = history.snapshots ∧ History.Single Snapshot.revision history.snapshots := by
  induction reached with
  | create config => exact ⟨{}, .create config, .empty, fun key => .empty key, rfl, .nil⟩
  | call reached call ih =>
    obtain ⟨ledger, keeps, sound, inStep, snapshots, single⟩ := ih
    obtain ⟨same, kept⟩ := MemoryStore.serve_agrees keeps sound call
    refine ⟨_, kept, ?_, fun key => (inStep key).answer call, ?_, ?_⟩
    · rw [History.accepted_concat, same]
      exact sound.step (ledger.answer_step call)
    · rw [History.snapshots_concat, ledger.snapshots_answer, same, snapshots]
    · rw [History.snapshots_concat]
      refine single.keep fun snapshot added => ?_
      rw [← snapshots]
      exact ledger.added_new (same ▸ added)

namespace Engine

/-- An engine holds a journal, heads and snapshots, and remembers commits, as a history has left them. -/
inductive Reflects (history : History) : Engine → Journal → Prop where
  | memory {store : MemoryStore} {ledger : Ledger} (keeps : store.Keeps ledger) (sound : ledger.Sound history.accepted)
    (inStep : ∀ key, ledger.InStep key) (snapshots : ledger.snapshots = history.snapshots)
    (single : History.Single Snapshot.revision history.snapshots) : Reflects history (.memory store) ledger.toJournal
  | database {store : DatabaseStore} {journal : Journal} (holds : store.db.Holds journal)
    (sound : journal.Sound history.accepted) (inStep : ∀ key, store.db.InStep key)
    (snapshots : store.db.snapshots = history.snapshots.map Snapshot.row)
    (single : History.Single (fun snapshot => snapshot.row.revision) history.snapshots)
    (recalls : store.handle.Recalls history.accepted) : Reflects history (.database store) journal

variable {engine : Engine} {journal : Journal} {history : History} {key : StreamKey}

theorem Reached.reflects (reached : engine.Reached history) : ∃ journal, engine.Reflects history journal := by
  cases reached with
  | memory reached =>
    obtain ⟨ledger, keeps, sound, inStep, snapshots, single⟩ := reached.reflects
    exact ⟨_, .memory keeps sound inStep snapshots single⟩
  | database reached seated =>
    obtain ⟨journal, reflects⟩ := reached.reflects
    exact ⟨journal, .database reflects.holds reflects.sound reflects.inStep reflects.snapshots reflects.single
      (reflects.recalls _ _ seated)⟩

theorem Reflects.sound (reflects : engine.Reflects history journal) : journal.Sound history.accepted := by
  cases reflects with
  | memory _ sound => exact sound
  | database _ sound => exact sound

/-! ### Reading -/

/-- An engine that remembers none of its commits. -/
def forgetful : Engine → Engine
  | .memory store => .memory store
  | .database store =>
    .database { store with handle := { store.handle with recent := { store.handle.recent with keys := [] } } }

theorem shows_forgetful (engine : Engine) : engine.forgetful.shows = engine.shows := by
  cases engine <;> rfl

/-- What an engine remembers is not asked for when its streams are read. -/
theorem getFrom_forgetful (engine : Engine) (least most : UInt64) :
    CommitStore.getFrom key least most engine = ((CommitStore.getFrom key least most engine.forgetful).1, engine) := by
  cases engine <;> rfl

theorem openWindow_forgetful (engine : Engine) (least most : UInt64) :
    EventStream.openWindow key least most engine =
      ((EventStream.openWindow key least most engine.forgetful).1, engine) := by
  rw [EventStream.openWindow, EventStream.openWindow, getFrom_forgetful]
  cases CommitStore.getFrom key least most engine.forgetful with
  | mk answer other =>
    cases answer with
    | error error => rfl
    | ok commits =>
      dsimp only
      cases EventStream.populate least most commits (EventStream.create key) with
      | mk outcome stream =>
        cases outcome with
        | error overflow => rfl
        | ok =>
          dsimp only
          split <;> rfl

/-- An engine that is open reads as one that holds its journal and remembers nothing. -/
theorem Reflects.headed (reflects : engine.Reflects history journal) (isOpen : CommitStore.isDisposed engine = false) :
    engine.forgetful.Headed engine.Restores journal := by
  cases reflects with
  | memory keeps sound inStep => exact .memory keeps isOpen inStep
  | database holds sound inStep =>
    exact .database ⟨holds, fun _ key member => absurd member List.not_mem_nil⟩ isOpen (fun _ storable => storable) inStep

/-- The log of a stream, as it can be read. -/
def log? (key : StreamKey) : Engine → Except Error (List Commit)
  | .memory store => .ok (store.log key)
  | .database store => Row.decodeAll (store.db.stream key)

/-- The checkpoints in a stream, which are there even if their commits cannot be read. -/
def checkpoints (key : StreamKey) : Engine → List Checkpoint
  | .memory store => (store.log key).map Commit.checkpoint
  | .database store => (store.db.stream key).map Row.checkpoint

/-- What is stored of a stream can be read back as it was. -/
def Legible (engine : Engine) (key : StreamKey) (history : History) : Prop :=
  ∀ commit ∈ history.accepted, commit.checkpoint ∈ engine.checkpoints key → engine.Restores commit

theorem Reflects.checkpoints_eq (reflects : engine.Reflects history journal) :
    engine.checkpoints key = (journal.stream key).map Commit.checkpoint := by
  cases reflects with
  | memory keeps => exact congrArg (List.map Commit.checkpoint) (keeps.streams key)
  | database holds =>
    rw [checkpoints, holds.stream_eq, Journal.stream_eq_map, List.map_map, List.map_map]
    rfl

theorem Reflects.known (reflects : engine.Reflects history journal) (legible : engine.Legible key history) :
    ∀ commit ∈ journal.stream key, engine.Restores commit := by
  intro commit member
  refine legible commit (reflects.sound.kept.subset (List.mem_filter.1 member).1) ?_
  rw [reflects.checkpoints_eq]
  exact List.mem_map_of_mem member

/-- An engine holds a journal, whether it is open or not. -/
inductive Logs : Engine → Journal → Prop where
  | memory {store : MemoryStore} {ledger : Ledger} (keeps : store.Keeps ledger) : Logs (.memory store) ledger.toJournal
  | database {store : DatabaseStore} {journal : Journal} (holds : store.db.Holds journal) :
    Logs (.database store) journal

theorem Reflects.logs (reflects : engine.Reflects history journal) : engine.Logs journal := by
  cases reflects with
  | memory keeps => exact .memory keeps
  | database holds => exact .database holds

/-- The log that is read is that of the journal. -/
theorem Logs.log_eq {accepted : List Commit} (logs : engine.Logs journal) (sound : journal.Sound accepted)
    (known : ∀ commit ∈ journal.stream key, engine.Restores commit) :
    engine.log? key = .ok ((journal.stream key).map engine.shows) := by
  cases logs with
  | memory keeps =>
    rw [log?, keeps.streams]
    exact congrArg Except.ok (List.map_id _).symm
  | database holds =>
    have decoded := decodeAll_map fun entry member =>
      Entry.decode_row (sound.fits (Journal.mem_entriesOf member))
        (known _ (by rw [Journal.stream_eq_map]; exact List.mem_map_of_mem member))
    rw [log?, holds.stream_eq, decoded, Journal.stream_eq_map, List.map_map]
    rfl

end Engine
end CommitLog
